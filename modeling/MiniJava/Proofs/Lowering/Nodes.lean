import MiniJava.Proofs.Lowering.Code

/-!
# What nodes contribute to lowered code

For each node of a tree the instructions that it adds to the code of its parts, with the types of
the operands in them. A property of all these instructions is one of all lowered code, and the
code has the shape that is described for it.
-/

namespace MiniJava.Semantics

open Ir (Operand Instr)
open Lowering

variable {c : Context} {d : Method}

/-! ## Instructions of expressions -/

/-- The operator of the intermediate code for one that needs both operands. -/
def strictOp? : BinOp → Option Ir.BinOp
  | .add => some .add
  | .sub => some .sub
  | .mul => some .mul
  | .div => some .div
  | .lt => some .lt
  | .and | .or => none

/-- The types of the operands that arguments are passed in. -/
def argTys (c : Context) (parameters : Parameters) : List Expr → List (Option Ty)
  | [] => (parameters.rest.map fun array => some (.array (packedTy array))).toList
  | e :: rest =>
    match parameters.packing? with
    | some array =>
      if rest.isEmpty ∧ typeOf c (some (packedTy array)) e = some array then [some array]
      else [some (.array (packedTy array))]
    | none => typeOf c parameters.fixed.head? e :: argTys c parameters.next rest

theorem argTys_packed {parameters : Parameters} {array : Ty} (h : parameters.packing? = some array)
    (e : Expr) (rest : List Expr) : argTys c parameters (e :: rest) =
      if rest.isEmpty ∧ typeOf c (some (packedTy array)) e = some array then [some array]
      else [some (.array (packedTy array))] := by
  rw [argTys, h]

/-- An argument of a call is packed into an array. An argument that is such an array is not, if
there is no other one. -/
structure IsPacked (c : Context) (parameters : Parameters) (args : List Expr) (array : Ty)
    (e : Expr) : Prop where
  rest : parameters.rest = some array
  mem : e ∈ args.drop parameters.fixed.length
  notAlone : ¬ (args.drop parameters.fixed.length = [e]
    ∧ typeOf c (some (packedTy array)) e = some array)

/-- What the array that arguments are packed into is made by. -/
inductive PackInstr (c : Context) (parameters : Parameters) (args : List Expr) : Instr → Prop
  | allocate {array : Ty} {id : Nat} {n : Int32} (h : parameters.rest = some array) :
    PackInstr c parameters args (.assignVar (.temp id (.array (packedTy array)))
      (.call (.newArray (packedTy array) (.int n))))
  | item {array : Ty} {e : Expr} {id : Nat} {n : Int32} {value : Operand}
    (h : IsPacked c parameters args array e)
    (hvalue : typeOf c (some (packedTy array)) e = some value.ty) :
    PackInstr c parameters args (.assign
      (.element (.temp id (.array (packedTy array))) (.int n) (packedTy array)) (.operand value))

/-- What a call is on: a class that is named, or an operand. -/
inductive IsTarget (c : Context) (target : Expr) : Operand → Prop
  | ofClass {name : String} (h : c.classTarget? target = some name) :
    IsTarget c target (.classRef name)
  | ofOperand {o : Operand} (h : c.classTarget? target = none)
    (hty : typeOf c none target = some o.ty) (ho : ∀ name, o ≠ .classRef name) :
    IsTarget c target o

/-- The instruction that a call in the source becomes. -/
structure IsCall (c : Context) (hint : Option Ty) (discard : Bool) (target : Expr) (method : String)
    (args : List Expr) (call : Ir.Call) : Prop where
  on : IsTarget c target call.target
  kind : call.kind = targetKind call.target
  name : call.method = some method
  args : call.args.map (fun o => some o.ty) =
    argTys c (.ofSignature? (c.signature? target (typeOf c none target) method)) args
  returnTy : call.returnTy =
    callReturnTy (c.signature? target (typeOf c none target) method) hint discard

/-- What an expression adds to the code of its parts, labels and plain jumps left out. -/
inductive NodeInstr (c : Context) : Option Ty → Expr → Instr → Prop
  | field {hint : Option Ty} {name : String} {ty : Ty} {id : Nat} (h : c.meaning name = .field ty) :
    NodeInstr c hint (.var name)
      (.assignVar (.temp id ty) (.getField (.receiver c.symbols.className) name ty))
  | strict {hint : Option Ty} {op : BinOp} {op' : Ir.BinOp} {left right : Expr} {x y : Operand}
    {id : Nat} (hop : strictOp? op = some op') (hx : typeOf c (some .int) left = some x.ty)
    (hy : typeOf c (some .int) right = some y.ty) :
    NodeInstr c hint (.binary op left right)
      (.assignVar (.temp id op'.resultTy) (.binary op' x y))
  | test {hint : Option Ty} {op : BinOp} {left right : Expr} {x : Operand} {l : Label}
    (hop : op.isLogical) (hx : typeOf c (some .boolean) left = some x.ty) (hl : ∃ n,
      l = .numbered .andRight n ∨ l = .numbered .orTrue n) :
    NodeInstr c hint (.binary op left right) (.condGoto (.operand x) l)
  | decided {hint : Option Ty} {op : BinOp} {left right : Expr} {id : Nat} {value : Bool}
    (hop : op.isLogical) :
    NodeInstr c hint (.binary op left right)
      (.assignVar (.temp id .boolean) (.operand (.bool value)))
  | undecided {hint : Option Ty} {op : BinOp} {left right : Expr} {x : Operand} {id : Nat}
    (hop : op.isLogical) (hx : typeOf c (some .boolean) right = some x.ty) :
    NodeInstr c hint (.binary op left right) (.assignVar (.temp id .boolean) (.operand x))
  | not {hint : Option Ty} {e : Expr} {x : Operand} {id : Nat}
    (hx : typeOf c (some .boolean) e = some x.ty) :
    NodeInstr c hint (.not e) (.assignVar (.temp id .boolean) (.not x))
  | newArray {hint : Option Ty} {element : Ty} {size : Expr} {x : Operand} {id : Nat}
    (hx : typeOf c (some .int) size = some x.ty) :
    NodeInstr c hint (.newArray element size)
      (.assignVar (.temp id (.array element)) (.call (.newArray element x)))
  | literalArray {hint : Option Ty} {es : List Expr} {id : Nat} {n : Int32} {element : Ty}
    (h : element = itemTy c (hint.bind (·.element?)) es) :
    NodeInstr c hint (.arrayLiteral es)
      (.assignVar (.temp id (.array element)) (.call (.newArray element (.int n))))
  | item {hint : Option Ty} {es : List Expr} {e : Expr} {id : Nat} {n : Int32} {element : Ty}
    {x : Operand} (h : element = itemTy c (hint.bind (·.element?)) es) (he : e ∈ es)
    (hx : typeOf c (hint.bind (·.element?)) e = some x.ty) :
    NodeInstr c hint (.arrayLiteral es)
      (.assign (.element (.temp id (.array element)) (.int n) element) (.operand x))
  | index {hint : Option Ty} {array place : Expr} {x y : Operand} {id : Nat} {element : Ty}
    (hx : typeOf c none array = some x.ty) (helement : x.ty = .array element)
    (hy : typeOf c (some .int) place = some y.ty) :
    NodeInstr c hint (.index array place)
      (.assignVar (.temp id element) (.arrayLoad x y element))
  | length {hint : Option Ty} {array : Expr} {x : Operand} {id : Nat} {element : Ty}
    (hx : typeOf c none array = some x.ty) (helement : x.ty = .array element) :
    NodeInstr c hint (.length array) (.assignVar (.temp id .int) (.call (.arrayLength x)))
  | newObject {hint : Option Ty} {name : String} {id : Nat} :
    NodeInstr c hint (.newObject name)
      (.assignVar (.temp id (.object name)) (.call (.newObject name)))
  | construct {hint : Option Ty} {name : String} {id : Nat} :
    NodeInstr c hint (.newObject name) (.call (.constructor (.temp id (.object name))))
  | packed {hint : Option Ty} {target : Expr} {method : String} {args : List Expr} {i : Instr}
    (h : PackInstr c (.ofSignature? (c.signature? target (typeOf c none target) method)) args i) :
    NodeInstr c hint (.call target method args) i
  | call {hint : Option Ty} {target : Expr} {method : String} {args : List Expr} {call : Ir.Call}
    {id : Nat} (h : IsCall c hint false target method args call) (hvoid : ¬ call.returnTy.isVoid) :
    NodeInstr c hint (.call target method args)
      (.assignVar (.temp id call.returnTy) (.call call))
  | callVoid {hint : Option Ty} {target : Expr} {method : String} {args : List Expr} {call : Ir.Call}
    (h : IsCall c hint false target method args call) (hvoid : call.returnTy.isVoid) :
    NodeInstr c hint (.call target method args) (.call call)

/-! ## Single expressions -/

/-- Lowering gives code for an expression. -/
def Codes (c : Context) (Φ : Instr → Prop) (x : Lower Lowered) : Prop :=
  ∀ ⦃k l k'⦄, Gives x k l k' → Code c Φ [] k l.code l.operand.toList k'

/-- Lowering gives an operand of a type, or none. -/
def Types (x : Lower Lowered) (ty : Option Ty) : Prop :=
  ∀ ⦃k l k'⦄, Gives x k l k' → l.operand.map (·.ty) = ty

theorem Types.operand {x : Lower Lowered} {ty : Option Ty} (h : Types x ty) {k k' : Counters}
    {l : Lowered} (hl : Gives x k l k') {o : Operand} (ho : l.operand = some o) :
    ty = some o.ty := by
  rw [← h hl, ho]
  rfl

theorem lowerExpr_fits (hc : c.method = .ofMethod d) (hint : Option Ty) (e : Expr) {k k' : Counters}
    {l : Lowered} (h : Gives (lowerExpr (scopeOf c d) hint e) k l k') :
    Fits c k k' l (typeOf c hint e) :=
  (lowerExpr_lowers (m := { name := "", isStatic := true, returnTy := .void }) hc
    (fun i l h => by cases h) hint e h).fits

theorem lowerExpr_types (hc : c.method = .ofMethod d) (hint : Option Ty) (e : Expr) :
    Types (lowerExpr (scopeOf c d) hint e) (typeOf c hint e) :=
  fun _ _ _ h => (lowerExpr_fits hc hint e h).ty

section Expressions

variable {Φ : Instr → Prop} {x y : Lower Lowered} {a b : Option Ty}

theorem Codes.operand (h : Codes c Φ x) {k k' : Counters} {l : Lowered} (hl : Gives x k l k')
    {o : Operand} (ho : l.operand = some o) : Code c Φ [] k l.code [o] k' := by
  have hcode := h hl
  rwa [ho] at hcode

theorem Code.computes {k k₁ k' : Counters} {code : List Instr} {os : List Operand} {ty : Ty}
    {value : Ir.Value} {l : Lowered} (h : Code c Φ [] k code os k₁)
    (hl : Gives (Lowering.compute code ty value) k₁ l k')
    (hreads : ∀ o ∈ value.operands, o ∈ os ∨ Free c o)
    (hΦ : ∀ id, Φ (.assignVar (.temp id ty) value)) :
    Code c Φ [] k l.code l.operand.toList k' := by
  obtain ⟨rfl, rfl⟩ := gives_compute hl
  refine .weaken (.compute h (fun o ho => ?_) (hΦ _)) (List.cons_subset_cons _ (List.nil_subset _))
  exact (hreads o ho).imp id .inr

theorem lowerVar_codes (hc : c.method = .ofMethod d) {name : String}
    (hΦ : ∀ id ty, c.meaning name = .field ty →
      Φ (.assignVar (.temp id ty) (.getField (.receiver c.symbols.className) name ty))) :
    Codes c Φ (lowerVar (scopeOf c d) name) := by
  intro k l k' h
  obtain ⟨ty, hmeaning, rfl, rfl⟩ | ⟨ty, hmeaning, hstatic, h⟩ := lowerVar_gives hc h
  · exact .free hmeaning
  · refine Code.computes .nil h (fun o ho => .inr ?_) fun id => hΦ id ty hmeaning
    rw [List.mem_singleton.mp ho]
    exact ⟨rfl, hstatic⟩

theorem lowerBinary_codes {op : Ir.BinOp} (hx : Codes c Φ x) (hy : Codes c Φ y) (tx : Types x a)
    (ty : Types y b) (hΦ : ∀ id u v, a = some u.ty → b = some v.ty →
      Φ (.assignVar (.temp id op.resultTy) (.binary op u v))) :
    Codes c Φ (lowerBinary op x y) := by
  intro k l k' h
  obtain ⟨l₁, k₁, l₂, k₂, u, v, gx, gy, hu, hv, h⟩ := lowerBinary_gives h
  exact ((hx.operand gx hu).append (hy.operand gy hv)).computes h (fun o ho => .inl ho)
    fun id => hΦ id u v (tx.operand gx hu) (ty.operand gy hv)

theorem lowerNot_codes (hx : Codes c Φ x) (tx : Types x a)
    (hΦ : ∀ id u, a = some u.ty → Φ (.assignVar (.temp id .boolean) (.not u))) :
    Codes c Φ (lowerNot x) := by
  intro k l k' h
  obtain ⟨l₁, k₁, u, gx, hu, h⟩ := lowerNot_gives h
  exact (hx.operand gx hu).computes h (fun o ho => .inl ho) fun id => hΦ id u (tx.operand gx hu)

theorem lowerNewArray_codes {element : Ty} (hx : Codes c Φ x) (tx : Types x a)
    (hΦ : ∀ id u, a = some u.ty →
      Φ (.assignVar (.temp id (.array element)) (.call (.newArray element u)))) :
    Codes c Φ (lowerNewArray element x) := by
  intro k l k' h
  obtain ⟨l₁, k₁, u, gx, hu, h⟩ := lowerNewArray_gives h
  refine (hx.operand gx hu).computes h (fun o ho => ?_) fun id => hΦ id u (tx.operand gx hu)
  rcases List.mem_cons.mp ho with rfl | ho
  · exact .inr trivial
  · exact .inl ho

theorem lowerIndex_codes {name : String} (hx : Codes c Φ x) (hy : Codes c Φ y) (tx : Types x a)
    (ty : Types y b) (hΦ : ∀ id u v element, a = some u.ty → u.ty = .array element → b = some v.ty →
      Φ (.assignVar (.temp id element) (.arrayLoad u v element))) :
    Codes c Φ (lowerIndex name x y) := by
  intro k l k' h
  obtain ⟨l₁, k₁, l₂, k₂, u, v, element, gx, gy, hu, hv, harray, h⟩ := lowerIndex_gives h
  exact ((hx.operand gx hu).append (hy.operand gy hv)).computes h (fun o ho => .inl ho)
    fun id => hΦ id u v element (tx.operand gx hu) harray (ty.operand gy hv)

theorem lowerLength_codes {name : String} (hx : Codes c Φ x) (tx : Types x a)
    (hΦ : ∀ id u element, a = some u.ty → u.ty = .array element →
      Φ (.assignVar (.temp id .int) (.call (.arrayLength u)))) :
    Codes c Φ (lowerLength name x) := by
  intro k l k' h
  obtain ⟨l₁, k₁, u, element, gx, hu, harray, h⟩ := lowerLength_gives h
  exact (hx.operand gx hu).computes h (fun o ho => .inl ho)
    fun id => hΦ id u element (tx.operand gx hu) harray

theorem lowerNewObject_codes {name : String}
    (hΦ : ∀ id, Φ (.assignVar (.temp id (.object name)) (.call (.newObject name))))
    (hconstruct : ∀ id, Φ (.call (.constructor (.temp id (.object name))))) :
    Codes c Φ (lowerNewObject name) := by
  intro k l k' h
  rw [lowerNewObject] at h
  obtain ⟨o, k₁, htemp, h⟩ := h.bind
  obtain ⟨rfl, rfl⟩ := gives_freshTemp htemp
  obtain ⟨rfl, rfl⟩ := Gives.pure_iff.mp h
  refine .effect (a := [_]) (.compute .nil (fun o ho => ?_) (hΦ k.temps)) ⟨rfl, rfl, rfl⟩
    (fun o ho => .inl ho) (hconstruct k.temps)
  rw [List.mem_singleton.mp ho]
  exact .inr (.inr trivial)

theorem lowerAnd_codes {decided : Option Bool} (hx : Codes c Φ x) (hy : Codes c Φ y)
    (tx : Types x a) (ty : Types y b)
    (hΦ : ∀ n, (∀ u, a = some u.ty → Φ (.condGoto (.operand u) (.numbered .andRight n))) ∧
      Φ (.assignVar (.temp n .boolean) (.operand (.bool false))) ∧
      ∀ u, b = some u.ty → Φ (.assignVar (.temp n .boolean) (.operand u))) :
    Codes c Φ (lowerAnd decided x y) := by
  intro k l k' h
  match decided with
  | some true => exact hy h
  | some false =>
    obtain ⟨rfl, rfl⟩ := Gives.pure_iff.mp h
    exact .free trivial
  | none =>
    obtain ⟨l₁, k₁, l₂, u, v, gx, gy, hu, hv, rfl⟩ := lowerAnd_gives h
    refine .and (hx.operand gx hu) List.mem_cons_self (hy.operand gy hv) List.mem_cons_self ?_
    simp only [List.forall_mem_cons, List.not_mem_nil, false_implies, implies_true, and_true]
    exact ⟨(hΦ _).1 u (tx.operand gx hu), (hΦ _).2.1, (hΦ _).2.2 v (ty.operand gy hv)⟩

theorem lowerOr_codes {decided : Option Bool} (hx : Codes c Φ x) (hy : Codes c Φ y)
    (tx : Types x a) (ty : Types y b)
    (hΦ : ∀ n, (∀ u, a = some u.ty → Φ (.condGoto (.operand u) (.numbered .orTrue n))) ∧
      (∀ u, b = some u.ty → Φ (.assignVar (.temp n .boolean) (.operand u))) ∧
      Φ (.assignVar (.temp n .boolean) (.operand (.bool true)))) :
    Codes c Φ (lowerOr decided x y) := by
  intro k l k' h
  match decided with
  | some false => exact hy h
  | some true =>
    obtain ⟨rfl, rfl⟩ := Gives.pure_iff.mp h
    exact .free trivial
  | none =>
    obtain ⟨l₁, k₁, l₂, u, v, gx, gy, hu, hv, rfl⟩ := lowerOr_gives h
    refine .or (hx.operand gx hu) List.mem_cons_self (hy.operand gy hv) List.mem_cons_self ?_
    simp only [List.forall_mem_cons, List.not_mem_nil, false_implies, implies_true, and_true]
    exact ⟨(hΦ _).1 u (tx.operand gx hu), (hΦ _).2.1 v (ty.operand gy hv), (hΦ _).2.2⟩

end Expressions

end MiniJava.Semantics
