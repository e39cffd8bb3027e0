import MiniJava.Proofs.Emission.Refusals

/-!
# Which trees have code

Whether there is code for a method can be read off its tree: names denote what they are used as,
operands have values, what is indexed or measured is an array, methods are called on objects, no
value of type `void` is kept, and no array is too long to be counted. What a constant left operand of
a logical operator leaves out is not looked at.
-/

namespace MiniJava

/-! ## Computations with acceptable results -/

/-- From whatever state it starts, a computation gives an acceptable result if and only if a
condition holds. -/
def Accepts {ε σ α : Type} (good : α → Prop) (x : ExceptT ε (StateM σ) α) (P : Prop) : Prop :=
  ∀ s, (∃ a s', Gives x s a s' ∧ good a) ↔ P

namespace Accepts

variable {ε σ α β : Type} {good : α → Prop} {good' : β → Prop} {P Q : Prop} {R : α → Prop}
  {x : ExceptT ε (StateM σ) α} {f : α → ExceptT ε (StateM σ) β}

theorem congr (h : Accepts good x P) (hiff : P ↔ Q) : Accepts good x Q :=
  fun s => (h s).trans hiff

theorem pure (a : α) : Accepts good (Pure.pure a : ExceptT ε (StateM σ) α) (good a) := by
  intro s
  constructor
  · rintro ⟨a', s', h, hgood⟩
    obtain ⟨rfl, _⟩ := Gives.pure_iff.mp h
    exact hgood
  · exact fun hgood => ⟨a, s, rfl, hgood⟩

theorem throw {e : ε} : Accepts good (throw e : ExceptT ε (StateM σ) α) False :=
  fun _ => ⟨fun ⟨_, _, h, _⟩ => Gives.throw_iff.mp h, False.elim⟩

theorem bind_of (hx : Accepts good x P) (hR : Yields R x)
    (hf : ∀ a, R a → Accepts good' (f a) (good a ∧ Q)) : Accepts good' (x >>= f) (P ∧ Q) := by
  intro s
  constructor
  · rintro ⟨b, s', h, hb⟩
    obtain ⟨a, t, ha, h⟩ := h.bind
    obtain ⟨hgood, hQ⟩ := (hf a (hR ha) t).mp ⟨b, s', h, hb⟩
    exact ⟨(hx s).mp ⟨a, t, ha, hgood⟩, hQ⟩
  · rintro ⟨hP, hQ⟩
    obtain ⟨a, t, ha, hgood⟩ := (hx s).mpr hP
    obtain ⟨b, s', h, hb⟩ := (hf a (hR ha) t).mpr ⟨hgood, hQ⟩
    exact ⟨b, s', Gives.bind_iff.mpr ⟨a, t, ha, h⟩, hb⟩

theorem bind (hx : Accepts good x P) (hf : ∀ a, Accepts good' (f a) (good a ∧ Q)) :
    Accepts good' (x >>= f) (P ∧ Q) :=
  hx.bind_of (R := fun _ => True) (fun _ _ _ _ => trivial) fun a _ => hf a

theorem behind (hx : ∀ s, ∃ a s', Gives x s a s') (hf : ∀ a, Accepts good' (f a) Q) :
    Accepts good' (x >>= f) Q := by
  have htrue : Accepts (fun _ => True) x True := fun s =>
    ⟨fun _ => trivial, fun _ => let ⟨a, s', h⟩ := hx s; ⟨a, s', h, trivial⟩⟩
  exact (htrue.bind fun a => (hf a).congr ⟨fun h => ⟨trivial, h⟩, And.right⟩).congr
    ⟨And.right, fun h => ⟨trivial, h⟩⟩

theorem lift_bind {x : Except ε α} {Q : α → Prop} (hf : ∀ a, x = .ok a → Accepts good' (f a) (Q a)) :
    Accepts good' (liftM x >>= f) (∃ a, x = .ok a ∧ Q a) := by
  intro s
  constructor
  · rintro ⟨b, s', h, hb⟩
    obtain ⟨a, ha, h⟩ := h.lift_bind
    exact ⟨a, ha, (hf a ha s).mp ⟨b, s', h, hb⟩⟩
  · rintro ⟨a, ha, hQ⟩
    obtain ⟨b, s', h, hb⟩ := (hf a ha s).mpr hQ
    exact ⟨b, s', Gives.bind_iff.mpr ⟨a, s, Gives.lift_iff.mpr ⟨ha, rfl⟩, h⟩, hb⟩

end Accepts

namespace Semantics

open Ir (Operand Instr)
open Lowering

/-! ## Conditions on trees -/

/-- An expression has a value in a place that wants a type, and the type of the value is one of
these. -/
def HasType (c : Context) (Φ : Ty → Prop) (hint : Option Ty) (e : Expr) : Prop :=
  ∃ ty, typeOf c hint e = some ty ∧ Φ ty

/-- Any type will do. -/
def AnyTy : Ty → Prop := fun _ => True

/-- A variable can keep values of this type. -/
def Storable (ty : Ty) : Prop := ty.isVoid = false

/-- Values of this type have methods. -/
def HasMethods (ty : Ty) : Prop := ty.hasMethods = true

/-- A type of arrays, with such elements. -/
def ArrayOf (Φ : Ty → Prop) (ty : Ty) : Prop := ∃ element, ty = .array element ∧ Φ element

/-- The type that the next argument should have. -/
def Parameters.hint? (ps : Parameters) : Option Ty :=
  match ps.packing? with
  | some array => some (packedTy array)
  | none => ps.fixed.head?

mutual

/-- There is code for an expression in a place that wants a type. -/
def Expr.Compiles (c : Context) (hint : Option Ty) : Expr → Prop
  | .literal _ | .newObject _ => True
  | .self => c.method.isStatic = false
  | .var name =>
    match c.meaning name with
    | .var _ => True
    | .field ty => c.method.isStatic = false ∧ Storable ty
    | .className | .unknown => False
  | .paren inner => Expr.Compiles c hint inner
  | .binary op left right =>
    match decider? op, constant? left with
    | some decider, some value => value = decider ∨ Expr.Compiles c (some .boolean) right
    | some _, none =>
      (Expr.Compiles c (some .boolean) left ∧ HasType c AnyTy (some .boolean) left) ∧
        Expr.Compiles c (some .boolean) right ∧ HasType c Storable (some .boolean) right
    | none, _ =>
      (Expr.Compiles c (some .int) left ∧ HasType c AnyTy (some .int) left) ∧
        Expr.Compiles c (some .int) right ∧ HasType c AnyTy (some .int) right
  | .not operand => Expr.Compiles c (some .boolean) operand ∧ HasType c AnyTy (some .boolean) operand
  | .newArray _ size => Expr.Compiles c (some .int) size ∧ HasType c AnyTy (some .int) size
  | .arrayLiteral elements =>
    elements.length < 2147483648 ∧ Expr.ItemsCompile c (hint.bind (·.element?)) elements
  | .index array index =>
    (Expr.Compiles c none array ∧ HasType c (ArrayOf Storable) none array) ∧
      Expr.Compiles c (some .int) index ∧ HasType c AnyTy (some .int) index
  | .length array => Expr.Compiles c none array ∧ HasType c (ArrayOf AnyTy) none array
  | .call target method args =>
    let parameters := Parameters.ofSignature? (c.signature? target (typeOf c none target) method)
    (c.classTarget? target = none → Expr.Compiles c none target ∧ HasType c HasMethods none target) ∧
      Expr.ArgsCompile c parameters args ∧
      (parameters.rest.isSome → args.length - parameters.fixed.length < 2147483648)

/-- There is code for the items of an array. -/
def Expr.ItemsCompile (c : Context) (hint : Option Ty) : List Expr → Prop
  | [] => True
  | e :: rest =>
    (Expr.Compiles c hint e ∧ HasType c AnyTy hint e) ∧ Expr.ItemsCompile c hint rest

/-- There is code for the arguments of a call. -/
def Expr.ArgsCompile (c : Context) (parameters : Parameters) : List Expr → Prop
  | [] => True
  | e :: rest =>
    (Expr.Compiles c parameters.hint? e ∧ HasType c AnyTy parameters.hint? e) ∧
      Expr.ArgsCompile c parameters.next rest

end

/-- There is code for an expression, and it has a value of such a type. -/
abbrev Expr.CompilesTo (c : Context) (Φ : Ty → Prop) (hint : Option Ty) (e : Expr) : Prop :=
  Expr.Compiles c hint e ∧ HasType c Φ hint e

mutual

/-- There is code for a statement. -/
def Stmt.Compiles (c : Context) : Stmt → Prop
  | .assign target value =>
    match c.meaning target with
    | .var ty => Expr.CompilesTo c Storable (some ty) value
    | .field ty => Expr.CompilesTo c AnyTy (some ty) value ∧ c.method.isStatic = false
    | .className | .unknown => False
  | .arrayAssign target index value =>
    Expr.Compiles c none (.var target) ∧ ∃ element, c.nameTy? target = some (.array element) ∧
      Expr.CompilesTo c AnyTy (some .int) index ∧ Expr.CompilesTo c AnyTy (some element) value
  | .ite condition thenBranch elseBranch =>
    Expr.CompilesTo c AnyTy (some .boolean) condition ∧ Stmt.Compiles c thenBranch ∧
      Stmt.Compiles c elseBranch
  | .loop condition body =>
    Expr.CompilesTo c AnyTy (some .boolean) condition ∧ Stmt.Compiles c body
  | .block body => Stmt.AllCompile c body
  | .ret none => True
  | .ret (some value) => Expr.CompilesTo c AnyTy (some c.method.returnTy) value
  | .expr value => Expr.Compiles c none value

/-- There is code for each of several statements. -/
def Stmt.AllCompile (c : Context) : List Stmt → Prop
  | [] => True
  | s :: rest => Stmt.Compiles c s ∧ Stmt.AllCompile c rest

end

/-! ## Clean code -/

/-- Code that is not refused in emission. -/
def Clean (code : List Instr) : Prop := ∀ i ∈ code, i.refusal? = none

@[simp] theorem clean_nil : Clean [] := List.forall_mem_nil _

@[simp] theorem clean_cons {i : Instr} {code : List Instr} :
    Clean (i :: code) ↔ i.refusal? = none ∧ Clean code :=
  List.forall_mem_cons

@[simp] theorem clean_append {code code' : List Instr} :
    Clean (code ++ code') ↔ Clean code ∧ Clean code' :=
  List.forall_mem_append

/-- The value of a lowered expression has such a type. -/
def Lowered.Has (Φ : Ty → Prop) (l : Lowered) : Prop := ∃ o, l.operand = some o ∧ Φ o.ty

/-- Clean code with a value of such a type. -/
def CleanValue (Φ : Ty → Prop) (l : Lowered) : Prop := Clean l.code ∧ Lowered.Has Φ l

/-- A lowered expression is acceptable if its code is clean. -/
abbrev Admits (x : Lower Lowered) (P : Prop) : Prop := Accepts (fun l : Lowered => Clean l.code) x P

/-- There has to be a value of such a type as well. -/
abbrev AdmitsValue (Φ : Ty → Prop) (x : Lower Lowered) (P : Prop) : Prop :=
  Accepts (CleanValue Φ) x P

theorem assignVar_refusal {dest : Operand} {value : Ir.Value} :
    (Instr.assignVar dest value).refusal? = none ↔ Storable value.ty ∧ value.refusal? = none := by
  rw [Instr.assignVar, Instr.refusal?, Storable]
  cases value.ty.isVoid <;> simp

@[simp] theorem assignOperand_refusal {dest o : Operand} :
    (Instr.assignVar dest (.operand o)).refusal? = none ↔ Storable o.ty :=
  assignVar_refusal.trans (and_iff_left rfl)

@[simp] theorem operand_refusal {o : Operand} : (Ir.Value.operand o).refusal? = none := rfl

@[simp] theorem branch_refusal {value : Ir.Value} {l : Label} :
    (Instr.condGoto value l).refusal? = value.refusal? := rfl

@[simp] theorem call_refusal {call : Ir.Call} : (Instr.call call).refusal? = call.refusal? := rfl

@[simp] theorem goto_refusal {l : Label} : (Instr.goto l).refusal? = none := rfl

@[simp] theorem label_refusal {l : Label} : (Instr.label l).refusal? = none := rfl

@[simp] theorem store_refusal {array index o : Operand} {ty : Ty} :
    (Instr.assign (.element array index ty) (.operand o)).refusal? = none := rfl

theorem gives_fresh {ty : Ty} (k : Counters) : ∃ o k', Gives (freshTemp ty) k o k' := ⟨_, _, rfl⟩

theorem gives_label (k : Counters) : ∃ n k', Gives freshLabel k n k' := ⟨_, _, rfl⟩

section Parts

variable {c : Context} {d : Method} {x y : Lower Lowered} {P Q : Prop} {Φ : Ty → Prop}

theorem require_accepts {α : Type} {good : α → Prop} {l : Lowered} {role : OperandRole}
    {f : Operand → Lower α} {Q : Operand → Prop} (hf : ∀ o, Accepts good (f o) (Q o)) :
    Accepts good (liftM (l.require role) >>= f) (∃ o, l.operand = some o ∧ Q o) := by
  refine (Accepts.lift_bind fun o _ => hf o).congr (exists_congr fun o => and_congr_left fun _ => ?_)
  rw [Lowered.require]
  cases l.operand <;> simp

theorem compute_accepts {code : List Instr} {ty : Ty} {value : Ir.Value} :
    Admits (compute code ty value) (Clean code ∧ Storable value.ty ∧ value.refusal? = none) :=
  .behind gives_fresh fun _ => (Accepts.pure _).congr (by simp [assignVar_refusal])

theorem admitsValue (hx : Admits x P) {ty : Option Ty} (tx : Types x ty) (Φ : Ty → Prop) :
    AdmitsValue Φ x (P ∧ ∃ t, ty = some t ∧ Φ t) := by
  intro k
  constructor
  · rintro ⟨l, k', h, hclean, o, ho, hΦ⟩
    exact ⟨(hx k).mp ⟨l, k', h, hclean⟩, o.ty, tx.operand h ho, hΦ⟩
  · rintro ⟨hP, t, rfl, hΦ⟩
    obtain ⟨l, k', h, hclean⟩ := (hx k).mpr hP
    obtain ⟨o, ho, rfl⟩ := Option.map_eq_some_iff.mp (tx h)
    exact ⟨l, k', h, hclean, o, ho, hΦ⟩

/-! ## Single nodes -/

theorem lowerBinary_accepts {op : Ir.BinOp} (hx : AdmitsValue AnyTy x P) (hy : AdmitsValue AnyTy y Q) :
    Admits (lowerBinary op x y) (P ∧ Q) := by
  have hty : Storable op.resultTy := by cases op <;> rfl
  refine hx.bind fun l => (hy.bind fun r => ?_).congr and_comm
  refine (require_accepts fun u => require_accepts fun v => compute_accepts).congr ?_
  simp only [CleanValue, Lowered.Has, AnyTy, clean_append, Ir.Value.ty, Ir.Value.refusal?, hty]
  grind

theorem lowerNot_accepts (hx : AdmitsValue AnyTy x P) : Admits (lowerNot x) P := by
  refine (hx.bind (Q := True) fun l => ?_).congr (and_iff_left trivial)
  refine (require_accepts fun u => compute_accepts).congr ?_
  have hty : Storable .boolean := rfl
  simp only [CleanValue, Lowered.Has, AnyTy, Ir.Value.ty, Ir.Value.refusal?, hty]
  grind

theorem lowerNewArray_accepts {element : Ty} (hx : AdmitsValue AnyTy x P) :
    Admits (lowerNewArray element x) P := by
  refine (hx.bind (Q := True) fun l => ?_).congr (and_iff_left trivial)
  refine (require_accepts fun u => compute_accepts).congr ?_
  have hcall : ∀ u, Storable (Ir.Value.call (.newArray element u)).ty ∧
      (Ir.Value.call (.newArray element u)).refusal? = none := fun u => ⟨rfl, rfl⟩
  simp only [CleanValue, Lowered.Has, AnyTy, hcall]
  grind

theorem elementTy_iff {name : String} {o : Operand} {element : Ty} :
    elementTy name o = .ok element ↔ o.ty = .array element := by
  refine ⟨elementTy_ok, fun h => ?_⟩
  rw [elementTy, h]

theorem lowerIndex_accepts {name : String} (hx : AdmitsValue (ArrayOf Storable) x P)
    (hy : AdmitsValue AnyTy y Q) : Admits (lowerIndex name x y) (P ∧ Q) := by
  refine hx.bind fun l => ?_
  refine (require_accepts fun u => Accepts.lift_bind fun element _ =>
    hy.bind (Q := Clean l.code ∧ Storable element) fun r =>
      (require_accepts fun v => compute_accepts).congr ?_).congr ?_
  · simp only [CleanValue, Lowered.Has, AnyTy, clean_append, Ir.Value.ty, Ir.Value.refusal?]
    grind
  · simp only [CleanValue, Lowered.Has, ArrayOf, elementTy_iff]
    grind

theorem lowerLength_accepts {name : String} (hx : AdmitsValue (ArrayOf AnyTy) x P) :
    Admits (lowerLength name x) P := by
  refine (hx.bind (Q := True) fun l => ?_).congr (and_iff_left trivial)
  refine (require_accepts fun u => Accepts.lift_bind fun element _ => compute_accepts).congr ?_
  have hcall : ∀ u, Storable (Ir.Value.call (.arrayLength u)).ty ∧
      (Ir.Value.call (.arrayLength u)).refusal? = none := fun u => ⟨rfl, rfl⟩
  simp only [CleanValue, Lowered.Has, AnyTy, ArrayOf, elementTy_iff, hcall]
  grind

theorem lowerNewObject_accepts {name : String} : Admits (lowerNewObject name) True :=
  .behind gives_fresh fun dest => (Accepts.pure _).congr (by
    have hallocate : (Instr.assignVar dest (.call (.newObject name))).refusal? = none := rfl
    have hconstruct : (Instr.call (.constructor dest)).refusal? = none := rfl
    simp [hallocate, hconstruct])

theorem lowerAnd_accepts (hx : AdmitsValue AnyTy x P) (hy : AdmitsValue Storable y Q) :
    Admits (lowerAnd none x y) (P ∧ Q) := by
  have hfalse : Storable (Operand.bool false).ty := rfl
  refine hx.bind fun l => ?_
  refine (require_accepts fun test => Accepts.behind gives_label fun n => Accepts.behind gives_fresh
    fun result => hy.bind (Q := Clean l.code) fun r =>
      (require_accepts fun value => Accepts.pure _).congr ?_).congr ?_
  · simp only [CleanValue, Lowered.Has, clean_append, clean_cons, clean_nil, assignOperand_refusal,
      branch_refusal, operand_refusal, goto_refusal, label_refusal]
    grind
  · simp only [CleanValue, Lowered.Has, AnyTy]
    grind

theorem lowerOr_accepts (hx : AdmitsValue AnyTy x P) (hy : AdmitsValue Storable y Q) :
    Admits (lowerOr none x y) (P ∧ Q) := by
  have htrue : Storable (Operand.bool true).ty := rfl
  refine hx.bind fun l => ?_
  refine (require_accepts fun test => Accepts.behind gives_label fun n => Accepts.behind gives_fresh
    fun result => hy.bind (Q := Clean l.code) fun r =>
      (require_accepts fun value => Accepts.pure _).congr ?_).congr ?_
  · simp only [CleanValue, Lowered.Has, clean_append, clean_cons, clean_nil, assignOperand_refusal,
      branch_refusal, operand_refusal, goto_refusal, label_refusal]
    grind
  · simp only [CleanValue, Lowered.Has, AnyTy]
    grind

theorem receiver_accepts {α : Type} {good : α → Prop} (hc : c.method = .ofMethod d) {use : ReceiverUse}
    {f : Operand → Lower α} (hf : Accepts good (f (.receiver c.symbols.className)) Q) :
    Accepts good (liftM ((scopeOf c d).receiver use) >>= f) (c.method.isStatic = false ∧ Q) := by
  refine (Accepts.lift_bind (Q := fun _ => Q) fun o ho => ?_).congr ?_
  · obtain ⟨_, rfl⟩ := receiver_eq_ok ho
    exact hf
  · have hstatic : c.method.isStatic = d.isStatic := by rw [hc]; rfl
    have hreceiver : (scopeOf c d).receiver use = if d.isStatic
        then .error (.unsupported (.receiverInStatic use d.name))
        else .ok (.receiver c.symbols.className) := rfl
    rw [hreceiver, hstatic]
    cases d.isStatic <;> simp

theorem lowerVar_accepts (hc : c.method = .ofMethod d) (name : String) :
    Admits (lowerVar (scopeOf c d) name) (Expr.Compiles c none (.var name)) := by
  rw [Expr.Compiles, lowerVar, resolve_eq hc]
  cases hmeaning : c.meaning name with
  | var ty => exact (Accepts.pure _).congr (by simp [Lowered.value])
  | field ty =>
    refine (receiver_accepts hc compute_accepts).congr ?_
    simp [Ir.Value.ty, Ir.Value.refusal?]
  | className => exact .throw
  | unknown => exact .throw

/-- Clean code of items that all have values. -/
def CleanItems (items : List Lowered) : Prop := ∀ item ∈ items, CleanValue AnyTy item

theorem storeItems_clean (array : Operand) (element : Ty) : ∀ (items : List Lowered) (index : Nat),
    (∃ stores, storeItems array element index items = .ok stores ∧ Clean stores) ↔ CleanItems items
  | [], index => by simp [storeItems, CleanItems]
  | item :: rest, index => by
    rw [CleanItems, List.forall_mem_cons, ← CleanItems,
      ← storeItems_clean array element rest (index + 1)]
    constructor
    · rintro ⟨stores, h, hclean⟩
      rw [storeItems] at h
      obtain ⟨value, hvalue, h⟩ := except_bind h
      obtain ⟨more, hmore, h⟩ := except_bind h
      cases h
      simp only [clean_append, clean_cons] at hclean
      exact ⟨⟨hclean.1, value, require_eq_ok hvalue, trivial⟩, more, hmore, hclean.2.2⟩
    · rintro ⟨⟨hclean, o, ho, _⟩, more, hmore, hrest⟩
      refine ⟨item.code ++ Instr.assign (.element array (.int (.ofNat index)) element) (.operand o) ::
        more, ?_, by simp [hclean, hrest]⟩
      rw [storeItems, Lowered.require, ho, hmore]
      rfl

theorem packArray_accepts {good : Lowered → Prop} {element : Ty} {items : List Lowered}
    (hgood : ∀ code o, good { code, operand := some o } ↔ Clean code) :
    Accepts good (packArray element items) (CleanItems items ∧ items.length < 2147483648) := by
  rw [packArray]
  split
  · rename_i hlong
    refine fun k => ⟨fun h => ?_, fun h => absurd h.2 (Nat.not_lt.mpr hlong)⟩
    obtain ⟨_, _, h, _⟩ := h
    obtain ⟨_, _, hthrow, _⟩ := h.bind
    exact absurd hthrow Gives.throw_iff.mp
  · rename_i hshort
    rw [and_iff_left (Nat.lt_of_not_le hshort)]
    refine Accepts.behind gives_fresh fun array => ?_
    refine (Accepts.lift_bind fun stores _ => Accepts.pure _).congr ?_
    rw [← storeItems_clean array element items 0]
    have hallocate : (Instr.assignVar array
        (.call (.newArray element (.int (.ofNat items.length))))).refusal? = none := rfl
    simp [hgood, hallocate]

theorem itemsCons_accepts {rest : Lower (List Lowered)} (hx : AdmitsValue AnyTy x P)
    (hrest : Accepts CleanItems rest Q) :
    Accepts CleanItems (do let item ← x; let items ← rest; return item :: items) (P ∧ Q) := by
  refine hx.bind fun item => (hrest.bind fun items => (Accepts.pure _).congr ?_).congr and_comm
  rw [CleanItems, List.forall_mem_cons]
  exact and_comm

/-! ## Calls -/

/-- Clean code with an operand that a method can be called on. -/
def CleanTarget (result : List Instr × Operand) : Prop :=
  Clean result.1 ∧ (targetKind result.2 = .invokeVirtual → HasMethods result.2.ty)

/-- Clean code of the arguments, and of the items to be packed, which have values. -/
def CleanArguments (args : Arguments) : Prop := Clean args.code ∧ CleanItems args.packed

theorem argumentsCons_accepts {formals : Formals} {rest : Lower Arguments}
    (hx : AdmitsValue AnyTy x P) (hrest : Accepts CleanArguments rest Q) :
    Accepts CleanArguments (Arguments.cons formals x rest) (P ∧ Q) := by
  refine hx.bind fun a => ?_
  cases formals.isPacked with
  | true =>
    refine (hrest.bind fun r => (Accepts.pure _).congr ?_).congr and_comm
    simp only [CleanArguments, CleanItems, List.forall_mem_cons]
    grind
  | false =>
    refine (require_accepts fun o => hrest.bind (Q := Clean a.code) fun r =>
      (Accepts.pure _).congr ?_).congr ?_
    · simp only [CleanArguments, clean_append]
      grind
    · simp only [CleanValue, Lowered.Has, AnyTy]
      grind

theorem packArguments_accepts {array element : Ty} {items : List Lowered} :
    AdmitsValue AnyTy (packArguments array element items)
      (CleanItems items ∧ items.length < 2147483648) := by
  have hpack : AdmitsValue AnyTy (packArray element items)
      (CleanItems items ∧ items.length < 2147483648) :=
    packArray_accepts fun code o => by simp [CleanValue, Lowered.Has, AnyTy]
  unfold packArguments
  split
  · split
    · exact (Accepts.pure _).congr (by simp [CleanItems])
    · exact hpack
  · exact hpack

/-- How many arguments are left to be packed. -/
def packedCount (formals : Formals) (es : List Expr) : Nat :=
  match formals with
  | .plain _ => 0
  | .varargs tys _ => es.length - tys.length

theorem lowerArgs_packedCount {sc : Scope} (es : List Expr) (formals : Formals) :
    Yields (fun args => args.packed.length = packedCount formals es) (lowerArgs sc formals es) := by
  induction es generalizing formals with
  | nil => exact .pure (by cases formals <;> simp [packedCount])
  | cons e rest ih =>
    rw [lowerArgs]
    refine .behind fun a => ?_
    cases formals with
    | plain tys => exact .behind fun _ => .bind (ih _) fun _ h => .pure h
    | varargs tys array =>
      cases tys with
      | nil => exact .bind (ih _) fun _ h => .pure (by simp [h, packedCount, Formals.next])
      | cons ty tys =>
        exact .behind fun _ => .bind (ih _) fun _ h => .pure (by
          simp [h, packedCount, Formals.next])

theorem close_accepts {formals : Formals} {args : Arguments} {es : List Expr}
    (hcount : args.packed.length = packedCount formals es) :
    Accepts (fun result => Clean result.1) (args.close formals)
      (CleanArguments args ∧ ((parametersOf formals).rest.isSome →
        es.length - (parametersOf formals).fixed.length < 2147483648)) := by
  cases formals with
  | plain tys =>
    refine (Accepts.pure _).congr ?_
    simp [CleanArguments, CleanItems, parametersOf, List.length_eq_zero_iff.mp hcount]
  | varargs tys array =>
    refine (packArguments_accepts.bind (Q := Clean args.code) fun packed =>
      (require_accepts fun o => Accepts.pure _).congr ?_).congr ?_
    · simp only [CleanValue, Lowered.Has, AnyTy, clean_append]
      grind
    · rw [hcount]
      simp only [CleanArguments, packedCount, parametersOf]
      grind

theorem target_accepts (hx : AdmitsValue HasMethods x P) (hform : Forms d x) :
    Accepts CleanTarget (do let l ← x; return (l.code, ← l.require .callTarget)) P := by
  refine (hx.bind_of (Q := True) hform fun l hl => ?_).congr (and_iff_left trivial)
  refine (require_accepts fun o => Accepts.pure _).congr ?_
  have hkind : ∀ o, l.operand = some o → targetKind o = .invokeVirtual := by
    intro o ho
    cases o with
    | classRef name => exact absurd rfl (hl.operand _ ho name)
    | _ => rfl
  simp only [CleanTarget, CleanValue, Lowered.Has]
  grind

theorem lowerTarget_accepts (hc : c.method = .ofMethod d) {target : Expr}
    (hx : Admits (lowerExpr (scopeOf c d) none target) (Expr.Compiles c none target)) :
    Accepts CleanTarget (lowerTarget (scopeOf c d) target (lowerExpr (scopeOf c d) none target))
      (c.classTarget? target = none → Expr.CompilesTo c HasMethods none target) := by
  have hother := target_accepts (admitsValue hx (lowerExpr_types hc none target) HasMethods)
    (lowerExpr_forms d c.symbols target none)
  by_cases hvar : ∃ name, target = .var name
  · obtain ⟨name, rfl⟩ := hvar
    rw [lowerExpr] at hother
    rw [lowerTarget, resolve_eq hc]
    cases hmeaning : c.meaning name with
    | var ty | field ty =>
      exact hother.congr (by simp [Context.classTarget?, hmeaning, HasType])
    | className =>
      refine (Accepts.pure _).congr ?_
      simp [CleanTarget, targetKind, Context.classTarget?, hmeaning]
    | unknown =>
      refine Accepts.throw.congr ?_
      simp [Context.classTarget?, hmeaning, Expr.Compiles]
  · have hclass : c.classTarget? target = none := by
      cases target with
      | var name => exact absurd ⟨name, rfl⟩ hvar
      | _ => rfl
    have hlower : lowerTarget (scopeOf c d) target (lowerExpr (scopeOf c d) none target) = (do
        let l ← lowerExpr (scopeOf c d) none target
        return (l.code, ← l.require .callTarget)) := by
      cases target with
      | var name => exact absurd ⟨name, rfl⟩ hvar
      | _ => rfl
    rw [hlower]
    exact hother.congr (by simp [hclass, HasType])

theorem lowerTarget_signature (hc : c.method = .ofMethod d) (target : Expr) (method : String) :
    Yields (fun result => (scopeOf c d).ownSignature? result.2 method =
        c.signature? target (typeOf c none target) method)
      (lowerTarget (scopeOf c d) target (lowerExpr (scopeOf c d) none target)) := by
  have hlowers : LowersExpr c d { name := "", isStatic := true, returnTy := .void } none target :=
    lowerExpr_lowers hc (fun i l h => by cases h) none target
  exact fun k result k' h => ownSignature_eq (lowerTarget_lowered hc h) hlowers method

theorem finishCall_accepts {code : List Instr} {call : Ir.Call} {ty : Ty} {discard : Bool}
    (hty : call.returnTy = ty) :
    Admits (if discard || ty.isVoid then pure { code := code ++ [.call call], operand := none }
      else compute code ty (.call call)) (Clean code ∧ call.refusal? = none) := by
  split
  · exact (Accepts.pure _).congr (by simp)
  · rename_i hkept
    have hstorable : Storable ty := by
      rw [Storable]
      grind
    exact compute_accepts.congr (by simp [Ir.Value.ty, hty, hstorable, Ir.Value.refusal?])

theorem lowerCall_accepts (hc : c.method = .ofMethod d) {target : Expr} {method : String}
    {args : List Expr} {expected : Option Ty} {discard : Bool}
    (htarget : Admits (lowerExpr (scopeOf c d) none target) (Expr.Compiles c none target))
    (hargs : ∀ formals, Accepts CleanArguments (lowerArgs (scopeOf c d) formals args)
      (Expr.ArgsCompile c (parametersOf formals) args)) (hint : Option Ty) :
    Admits (lowerCall (scopeOf c d)
        (lowerTarget (scopeOf c d) target (lowerExpr (scopeOf c d) none target)) method
        (fun formals => lowerArgs (scopeOf c d) formals args) expected discard)
      (Expr.Compiles c hint (.call target method args)) := by
  rw [Expr.Compiles]
  refine (lowerTarget_accepts hc htarget).bind_of (lowerTarget_signature hc target method)
    fun result hsignature => ?_
  obtain ⟨targetCode, o⟩ := result
  simp only [hsignature]
  refine ((hargs _).bind_of (lowerArgs_packedCount args _) fun arguments hcount =>
    ((close_accepts hcount).bind (Q := CleanTarget (targetCode, o)) fun result => ?_).congr
      and_assoc).congr ?_
  · obtain ⟨argCode, operands⟩ := result
    refine (finishCall_accepts ?_).congr ?_
    · rfl
    · rw [CleanTarget, clean_append]
      cases o <;> simp [Ir.Call.refusal?, targetKind, HasMethods, and_assoc, and_comm,
        and_left_comm]
  · rw [parametersOf_ofSignature]
    grind

end Parts

/-! ## The tree -/

section Trees

variable {c : Context} {d : Method}

theorem logical_accepts {op : BinOp} {decider : Bool} {left right : Expr} (hint : Option Ty)
    {lower : Option Bool → Lower Lowered → Lower Lowered → Lower Lowered} {x y : Lower Lowered}
    (hop : decider? op = some decider)
    (hdecided : ∀ x y, lower (some decider) x y = pure (.value (.bool decider)))
    (hopen : ∀ x y, lower (some !decider) x y = y)
    (hy : Admits y (Expr.Compiles c (some .boolean) right))
    (hnone : Admits (lower none x y) (Expr.CompilesTo c AnyTy (some .boolean) left ∧
      Expr.CompilesTo c Storable (some .boolean) right)) :
    Admits (lower (decided? left) x y) (Expr.Compiles c hint (.binary op left right)) := by
  have hdecision : decided? left = constant? left := rfl
  rw [hdecision, Expr.Compiles, hop]
  cases hleft : constant? left with
  | none => exact hnone
  | some value =>
    by_cases hvalue : value = decider
    · subst hvalue
      rw [hdecided]
      exact (Accepts.pure _).congr (by simp [Lowered.value])
    · obtain rfl : value = !decider := by
        cases value <;> cases decider <;> first | rfl | exact absurd rfl hvalue
      rw [hopen]
      exact hy.congr (by simp)

theorem Admits.value (hc : c.method = .ofMethod d) {hint : Option Ty} {e : Expr} {P : Prop}
    (h : Admits (lowerExpr (scopeOf c d) hint e) P) (Φ : Ty → Prop) :
    AdmitsValue Φ (lowerExpr (scopeOf c d) hint e) (P ∧ HasType c Φ hint e) :=
  admitsValue h (lowerExpr_types hc hint e) Φ

mutual

/-- Whether there is code for an expression shows in the tree. -/
theorem lowerExpr_accepts (hc : c.method = .ofMethod d) : ∀ (e : Expr) (hint : Option Ty),
    Admits (lowerExpr (scopeOf c d) hint e) (Expr.Compiles c hint e)
  | .literal value, hint => by
    rw [lowerExpr, Expr.Compiles]
    exact (Accepts.pure _).congr (by simp [Lowered.value])
  | .self, hint => by
    rw [lowerExpr, Expr.Compiles]
    refine (receiver_accepts (Q := True) hc ?_).congr (and_iff_left trivial)
    exact (Accepts.pure _).congr (by simp [Lowered.value])
  | .var name, hint => by
    rw [lowerExpr]
    exact (lowerVar_accepts hc name).congr (by simp [Expr.Compiles])
  | .paren inner, hint => by
    rw [lowerExpr, Expr.Compiles]
    exact lowerExpr_accepts hc inner hint
  | .binary op left right, hint => by
    have hx := fun ty => (lowerExpr_accepts hc left (some ty)).value hc AnyTy
    have hy := fun ty => (lowerExpr_accepts hc right (some ty)).value hc
    cases op with
    | add | sub | mul | div | lt =>
      rw [lowerExpr, Expr.Compiles]
      exact lowerBinary_accepts (hx .int) (hy .int AnyTy)
    | and =>
      rw [lowerExpr]
      exact logical_accepts hint rfl (fun _ _ => rfl) (fun _ _ => rfl)
        (lowerExpr_accepts hc right _) (lowerAnd_accepts (hx .boolean) (hy .boolean Storable))
    | or =>
      rw [lowerExpr]
      exact logical_accepts hint rfl (fun _ _ => rfl) (fun _ _ => rfl)
        (lowerExpr_accepts hc right _) (lowerOr_accepts (hx .boolean) (hy .boolean Storable))
  | .not operand, hint => by
    rw [lowerExpr, Expr.Compiles]
    exact lowerNot_accepts ((lowerExpr_accepts hc operand _).value hc _)
  | .newArray element size, hint => by
    rw [lowerExpr, Expr.Compiles]
    exact lowerNewArray_accepts ((lowerExpr_accepts hc size _).value hc _)
  | .arrayLiteral elements, hint => by
    rw [lowerExpr, Expr.Compiles]
    refine ((lowerItems_accepts hc elements _).bind_of
      (fun _ _ _ h => (lowerItems_fit hc h).1) fun items hlength => ?_).congr and_comm
    rw [← hlength]
    exact packArray_accepts fun _ _ => Iff.rfl
  | .index array index, hint => by
    rw [lowerExpr, Expr.Compiles]
    exact lowerIndex_accepts ((lowerExpr_accepts hc array _).value hc _)
      ((lowerExpr_accepts hc index _).value hc _)
  | .length array, hint => by
    rw [lowerExpr, Expr.Compiles]
    exact lowerLength_accepts ((lowerExpr_accepts hc array _).value hc _)
  | .newObject className, hint => by
    rw [lowerExpr, Expr.Compiles]
    exact lowerNewObject_accepts
  | .call target method args, hint => by
    rw [lowerExpr]
    exact lowerCall_accepts hc (lowerExpr_accepts hc target none)
      (fun formals => lowerArgs_accepts hc args formals) hint

theorem lowerItems_accepts (hc : c.method = .ofMethod d) : ∀ (es : List Expr) (hint : Option Ty),
    Accepts CleanItems (lowerItems (scopeOf c d) hint es) (Expr.ItemsCompile c hint es)
  | [], hint => by
    rw [lowerItems, Expr.ItemsCompile]
    exact (Accepts.pure _).congr (by simp [CleanItems])
  | e :: rest, hint => by
    rw [lowerItems, Expr.ItemsCompile]
    exact itemsCons_accepts ((lowerExpr_accepts hc e hint).value hc _) (lowerItems_accepts hc rest hint)

theorem lowerArgs_accepts (hc : c.method = .ofMethod d) : ∀ (es : List Expr) (formals : Formals),
    Accepts CleanArguments (lowerArgs (scopeOf c d) formals es)
      (Expr.ArgsCompile c (parametersOf formals) es)
  | [], formals => by
    rw [lowerArgs, Expr.ArgsCompile]
    exact (Accepts.pure _).congr (by simp [CleanArguments, CleanItems])
  | e :: rest, formals => by
    have hhint : (parametersOf formals).hint? = formals.hint? := by
      cases formals with
      | plain tys | varargs tys array => cases tys <;> rfl
    rw [lowerArgs, Expr.ArgsCompile, hhint, ← parametersOf_next]
    exact argumentsCons_accepts ((lowerExpr_accepts hc e _).value hc _) (lowerArgs_accepts hc rest _)

end

theorem Expr.compiles_stripParens (hint : Option Ty) (e : Expr) :
    Expr.Compiles c hint e.stripParens ↔ Expr.Compiles c hint e := by
  induction e using Expr.stripParens.induct with
  | case1 inner ih => rw [Expr.stripParens, ih, Expr.Compiles]
  | case2 e hparen => rw [Expr.stripParens.eq_2 e hparen]

/-- The value of a call does not matter for the code. -/
theorem lowerEffect_accepts (hc : c.method = .ofMethod d) (e : Expr) :
    Admits (lowerEffect (scopeOf c d) e) (Expr.Compiles c none e) := by
  rw [← Expr.compiles_stripParens]
  refine lowerEffect_cases (P := fun e x => Admits x (Expr.Compiles c none e))
    (fun target method args => ?_) (fun e _ _ => lowerExpr_accepts hc e none) e
  exact lowerCall_accepts hc (lowerExpr_accepts hc target none)
    (fun formals => lowerArgs_accepts hc args formals) none

/-- Clean code that ends in a test of a value without a refusal. -/
def CleanTest (result : List Instr × Ir.Value) : Prop :=
  Clean result.1 ∧ result.2.refusal? = none

theorem lowerCondition_accepts (hc : c.method = .ofMethod d) (e : Expr) :
    Accepts CleanTest (lowerCondition (scopeOf c d) e)
      (Expr.CompilesTo c AnyTy (some .boolean) e) := by
  rw [Expr.CompilesTo, ← Expr.compiles_stripParens, HasType, ← typeOf_stripParens]
  refine lowerCondition_cases
    (P := fun e x => Accepts CleanTest x (Expr.CompilesTo c AnyTy (some .boolean) e))
    (fun left right => ?_) (fun e => ?_) e
  · have hx := (lowerExpr_accepts hc left (some .int)).value hc AnyTy
    have hy := (lowerExpr_accepts hc right (some .int)).value hc AnyTy
    refine (hx.bind fun l => (hy.bind fun r => ?_).congr and_comm).congr ?_
    · refine (require_accepts fun u => require_accepts fun v => Accepts.pure _).congr ?_
      simp only [CleanTest, CleanValue, Lowered.Has, AnyTy, clean_append, Ir.Value.refusal?]
      grind
    · simp [Expr.CompilesTo, Expr.Compiles, HasType, typeOf, AnyTy, decider?]
  · refine (((lowerExpr_accepts hc e _).value hc AnyTy).bind (Q := True) fun l => ?_).congr
      (and_iff_left trivial)
    refine (require_accepts fun u => Accepts.pure _).congr ?_
    simp only [CleanTest, CleanValue, Lowered.Has, AnyTy, Ir.Value.refusal?]
    grind

/-! ## Statements -/

theorem lowerAssign_accepts (hc : c.method = .ofMethod d) (target : String) (value : Expr) :
    Accepts Clean (lowerAssign (scopeOf c d) target fun hint => lowerExpr (scopeOf c d) hint value)
      (Stmt.Compiles c (.assign target value)) := by
  rw [lowerAssign, resolve_eq hc, Stmt.Compiles]
  cases hmeaning : c.meaning target with
  | var ty =>
    refine (((lowerExpr_accepts hc value _).value hc Storable).bind (Q := True) fun l => ?_).congr
      (and_iff_left trivial)
    refine (require_accepts fun o => Accepts.pure _).congr ?_
    simp only [clean_append, clean_cons, clean_nil, assignOperand_refusal, CleanValue, Lowered.Has]
    grind
  | field ty =>
    refine ((lowerExpr_accepts hc value _).value hc AnyTy).bind fun l => ?_
    refine (require_accepts (Q := fun _ => c.method.isStatic = false ∧ Clean l.code) fun o => ?_).congr
      ?_
    · exact receiver_accepts hc ((Accepts.pure _).congr (by simp [Instr.refusal?]))
    · simp only [CleanValue, Lowered.Has, AnyTy]
      grind
  | className => exact .throw
  | unknown => exact .throw

theorem lowerIf_accepts {condition : Lower (List Instr × Ir.Value)}
    {thenBranch elseBranch : Lower (List Instr)} (returns : Bool) {P Q R : Prop}
    (hcondition : Accepts CleanTest condition P) (hthen : Accepts Clean thenBranch Q)
    (helse : Accepts Clean elseBranch R) :
    Accepts Clean (lowerIf condition thenBranch elseBranch returns) (P ∧ Q ∧ R) := by
  have hskip : ∀ i : Instr, i.refusal? = none → Clean (if returns then [] else [i]) := by
    cases returns <;> simp
  refine Accepts.behind gives_label fun n => hcondition.bind fun test => ?_
  refine (helse.bind (Q := Q ∧ CleanTest test) fun elseCode =>
    (hthen.bind (Q := CleanTest test ∧ Clean elseCode) fun thenCode =>
      (Accepts.pure _).congr ?_).congr ?_).congr ?_
  · simp only [CleanTest, clean_append, clean_cons, clean_nil, label_refusal, hskip _ goto_refusal,
      hskip _ label_refusal, branch_refusal]
    grind
  · grind
  · grind

theorem lowerLoop_accepts {condition : Lower (List Instr × Ir.Value)} {body : Lower (List Instr)}
    {P Q : Prop} (hcondition : Accepts CleanTest condition P) (hbody : Accepts Clean body Q) :
    Accepts Clean (lowerLoop condition body) (P ∧ Q) := by
  refine Accepts.behind gives_label fun n => (hbody.bind fun code => (hcondition.bind fun test =>
    (Accepts.pure _).congr ?_).congr and_comm).congr and_comm
  simp only [CleanTest, clean_append, clean_cons, clean_nil, goto_refusal, label_refusal,
    branch_refusal]
  grind

theorem lowerArrayAssign_accepts (hc : c.method = .ofMethod d) (target : String) (index value : Expr) :
    Accepts Clean (lowerArrayAssign (scopeOf c d) target (lowerExpr (scopeOf c d) (some .int) index)
        fun hint => lowerExpr (scopeOf c d) hint value)
      (Stmt.Compiles c (.arrayAssign target index value)) := by
  have htarget := (lowerExpr_accepts hc (.var target) none).value hc (ArrayOf fun element =>
    Expr.CompilesTo c AnyTy (some .int) index ∧ Expr.CompilesTo c AnyTy (some element) value)
  rw [lowerExpr] at htarget
  rw [Stmt.Compiles]
  refine (htarget.bind (Q := True) fun a => ?_).congr ?_
  · refine (require_accepts fun array => Accepts.lift_bind fun element _ =>
      ((lowerExpr_accepts hc index _).value hc AnyTy).bind
        (Q := Expr.CompilesTo c AnyTy (some element) value ∧ Clean a.code) fun i =>
      (require_accepts fun place => ((lowerExpr_accepts hc value _).value hc AnyTy).bind
        (Q := Clean a.code ∧ Clean i.code) fun v =>
      (require_accepts fun o => Accepts.pure _).congr ?_).congr ?_).congr ?_
    · simp only [CleanValue, Lowered.Has, AnyTy, clean_append, clean_cons, clean_nil, store_refusal]
      grind
    · simp only [CleanValue, Lowered.Has, AnyTy]
      grind
    · simp only [CleanValue, Lowered.Has, ArrayOf, elementTy_iff]
      grind
  · simp [HasType, ArrayOf, typeOf]

theorem lowerReturn_accepts (hc : c.method = .ofMethod d) (value : Expr) :
    Accepts Clean (lowerReturn (scopeOf c d) fun hint => lowerExpr (scopeOf c d) hint value)
      (Stmt.Compiles c (.ret (some value))) := by
  rw [Stmt.Compiles, hc]
  refine (Accepts.lift_bind (x := .ok d) (Q := fun m =>
    Expr.CompilesTo c AnyTy (some m.returnTy) value) fun m _ => ?_).congr (by simp [Signature.ofMethod])
  refine (((lowerExpr_accepts hc value _).value hc AnyTy).bind (Q := True) fun l => ?_).congr
    (and_iff_left trivial)
  refine (require_accepts fun o => Accepts.pure _).congr ?_
  simp only [CleanValue, Lowered.Has, AnyTy, clean_append, clean_cons, clean_nil, Instr.refusal?]
  grind

mutual

theorem lowerStmt_accepts (hc : c.method = .ofMethod d) : ∀ (s : Stmt),
    Accepts Clean (lowerStmt (scopeOf c d) s) (Stmt.Compiles c s)
  | .assign target value => by
    rw [lowerStmt]
    exact lowerAssign_accepts hc target value
  | .arrayAssign target index value => by
    rw [lowerStmt]
    exact lowerArrayAssign_accepts hc target index value
  | .ite condition thenBranch elseBranch => by
    rw [lowerStmt, Stmt.Compiles]
    exact lowerIf_accepts _ (lowerCondition_accepts hc condition) (lowerStmt_accepts hc thenBranch)
      (lowerStmt_accepts hc elseBranch)
  | .loop condition body => by
    rw [lowerStmt, Stmt.Compiles]
    exact lowerLoop_accepts (lowerCondition_accepts hc condition) (lowerStmt_accepts hc body)
  | .block body => by
    rw [lowerStmt, Stmt.Compiles]
    exact lowerStmts_accepts hc body
  | .ret none => by
    rw [lowerStmt, Stmt.Compiles]
    exact (Accepts.pure _).congr (by simp [Instr.refusal?])
  | .ret (some value) => by
    rw [lowerStmt]
    exact lowerReturn_accepts hc value
  | .expr value => by
    rw [lowerStmt, Stmt.Compiles]
    exact ((lowerEffect_accepts hc value).bind (Q := True) fun l =>
      (Accepts.pure _).congr (and_iff_left trivial).symm).congr (and_iff_left trivial)

theorem lowerStmts_accepts (hc : c.method = .ofMethod d) : ∀ (body : List Stmt),
    Accepts Clean (lowerStmts (scopeOf c d) body) (Stmt.AllCompile c body)
  | [] => by
    rw [lowerStmts, Stmt.AllCompile]
    exact (Accepts.pure _).congr (by simp)
  | s :: rest => by
    rw [lowerStmts, Stmt.AllCompile]
    refine (lowerStmt_accepts hc s).bind fun code => ((lowerStmts_accepts hc rest).bind fun more =>
      (Accepts.pure _).congr ?_).congr and_comm
    rw [clean_append]
    exact and_comm

end

end Trees

/-! ## Methods -/

theorem lowerBody_accepts (symbols : SymbolTable) (d : Method) :
    Accepts Clean (lowerBody symbols d) (Stmt.AllCompile (anyContext symbols d) d.body) := by
  refine ((lowerStmts_accepts (c := anyContext symbols d) rfl d.body).bind (Q := True) fun code =>
    (Accepts.pure _).congr ?_).congr (and_iff_left trivial)
  split <;> simp [Instr.refusal?]

theorem lowerMethod_accepts (symbols : SymbolTable) (d : Method) :
    Accepts (fun ir => Clean ir.instructions) (lowerMethod symbols d)
      (Stmt.AllCompile (anyContext symbols d) d.body) := by
  refine fun k => Iff.trans ⟨?_, ?_⟩ (lowerBody_accepts symbols d k)
  · rintro ⟨ir, k', h, hclean⟩
    exact ⟨ir.instructions, k', (lowerMethod_gives h).body, hclean⟩
  · rintro ⟨code, k', h, hclean⟩
    obtain ⟨ir, hset, hmethod⟩ := lowerMethod_succeeds h
    refine ⟨ir, k', hmethod, ?_⟩
    show Clean ir.instructions
    rw [(Ir.Method.setBody_ok hset).2.1]
    exact hclean

end Semantics

end MiniJava
