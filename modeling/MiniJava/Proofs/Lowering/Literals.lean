import MiniJava.Proofs.Lowering.Packing

/-!
# Element types of array literals

The place of an array literal expects an array of some element type, which is passed down to the
items. The array itself is allocated for the type of the first item, and only without one for the
expected type. The two are the same unless the first item has another type than is expected, as an
object of a subclass has.
-/

namespace MiniJava.Lowering

open HasNumbers (Below)
open Ir (Instr Operand)
open Semantics (close_varargs packArguments_gives packedTy)

variable {sc : Scope} {element ty : Ty} {elements : List Expr} {e : Expr} {k k' : Counters}

/-! ## Literals -/

theorem lowerExpr_stripParens (sc : Scope) (hint : Option Ty) (e : Expr) :
    lowerExpr sc hint e.stripParens = lowerExpr sc hint e := by
  induction e using Expr.stripParens.induct with
  | case1 inner ih => rw [Expr.stripParens, ih, lowerExpr]
  | case2 e hparen => rw [Expr.stripParens.eq_2 e hparen]

/-- An array literal in a place that expects an array of `element`. Its items are lowered for that
type, then an array is made and filled with them. Its own element type is the one that is expected
exactly if the first item, if any, has that type. -/
inductive LowersLiteral (sc : Scope) (element : Ty) (elements : List Expr) (k : Counters) :
    Lowered → Prop
  | intro {items : List Lowered} {values : List Operand} {k₁ : Counters} {actual : Ty}
      {array : Operand}
      (lowered : Gives (elements.mapM (lowerExpr sc (some element))) k items k₁)
      (operands : items.map (·.operand) = values.map some)
      (of_first : ∀ first ∈ values.head?, actual = first.ty)
      (expected : actual = element ↔ ∀ first ∈ values.head?, first.ty = element)
      (fresh : array = .temp k₁.temps (.array actual) ∧ Below k₁ items)
      (writes : (packedCode array actual items values).filter (writesTemp k₁.temps) =
        .assignVar array (.call (.newArray actual (.int (.ofNat values.length)))) ::
          values.mapIdx (elementStore array actual)) :
      LowersLiteral sc element elements k
        { code := packedCode array actual items values, operand := some array }

theorem literalElementTy_first {items : List Lowered} {values : List Operand}
    (h : items.map (·.operand) = values.map some) :
    (∀ first ∈ values.head?, literalElementTy (some element) items = first.ty) ∧
      (literalElementTy (some element) items = element ↔
        ∀ first ∈ values.head?, first.ty = element) := by
  match items, values with
  | [], [] => exact ⟨nofun, fun _ => nofun, fun _ => rfl⟩
  | item :: rest, value :: values =>
    have hitem : item.operand = some value := (List.cons.inj h).1
    have hty : literalElementTy (some element) (item :: rest) = value.ty := by
      rw [literalElementTy, List.head?_cons, Option.bind_some, hitem]
    rw [hty]
    simp only [List.head?_cons, Option.mem_some_iff, forall_eq', true_and]

theorem lowersLiteral {literal : Expr} {l : Lowered}
    (hliteral : literal.stripParens = .arrayLiteral elements)
    (h : Gives (lowerExpr sc (some (.array element)) literal) k l k') :
    LowersLiteral sc element elements k l := by
  rw [← lowerExpr_stripParens, hliteral, lowerExpr, lowerItems_mapM] at h
  change Gives (elements.mapM (lowerExpr sc (some element)) >>= fun items =>
    packArray (literalElementTy (some element) items) items) k l k' at h
  obtain ⟨items, k₁, hitems, h⟩ := h.bind
  obtain ⟨values, hvalues, _, rfl, rfl⟩ := packArray_stores h
  obtain ⟨_, _, hbelow⟩ := mapM_lowerExpr_gives (f := fun e => (some element, e)) hitems
  obtain ⟨hfirst, hexpected⟩ := @literalElementTy_first element _ _ hvalues
  exact .intro hitems hvalues hfirst hexpected ⟨rfl, hbelow⟩ (filter_packedCode hbelow hvalues)

/-! ## Places in statements -/

/-- The type that the place of an expression in a statement expects. -/
inductive Expects (sc : Scope) : Stmt → Expr → Ty → Prop
  | toVariable {name : String} {value : Expr} {ty : Ty} :
      sc.resolve name = .ok (.variable ty) → Expects sc (.assign name value) value ty
  | toField {name : String} {value : Expr} {ty : Ty} :
      sc.resolve name = .ok (.field ty) → Expects sc (.assign name value) value ty
  | toElement {name : String} {index value : Expr} {ty : Ty} :
      sc.resolve name = .ok (.variable (.array ty)) ∨ sc.resolve name = .ok (.field (.array ty)) →
      Expects sc (.arrayAssign name index value) value ty
  | returned {m : Method} {value : Expr} {ty : Ty} :
      sc.method = some m → m.returnTy = ty → Expects sc (.ret (some value)) value ty

theorem lowerVar_ty {name : String} {l : Lowered}
    (hname : sc.resolve name = .ok (.variable ty) ∨ sc.resolve name = .ok (.field ty))
    (h : Gives (lowerVar sc name) k l k') : l.operand.map (·.ty) = some ty := by
  rw [lowerVar] at h
  rcases hname with hname | hname
  · rw [hname] at h
    obtain ⟨rfl, rfl⟩ := Gives.pure_iff.mp h
    rfl
  · rw [hname] at h
    obtain ⟨binding, hbinding, h⟩ := h.lift_bind
    cases hbinding
    obtain ⟨object, _, h⟩ := h.lift_bind
    obtain ⟨rfl, rfl⟩ := gives_compute h
    rfl

theorem Expects.lowered {s : Stmt} {code : List Instr} (h : Expects sc s e ty)
    (hs : Gives (lowerStmt sc s) k code k') :
    ∃ k₁ l k₂, Gives (lowerExpr sc (some ty) e) k₁ l k₂ ∧ l.code <:+: code := by
  cases h with
  | toVariable hname =>
    rw [lowerStmt, lowerAssign, hname] at hs
    obtain ⟨l, k₂, hl, hs⟩ := Gives.bind (x := lowerExpr sc (some ty) e) hs
    obtain ⟨o, _, hs⟩ := hs.lift_bind
    obtain ⟨rfl, rfl⟩ := Gives.pure_iff.mp hs
    exact ⟨k, l, _, hl, (List.prefix_append _ _).isInfix⟩
  | toField hname =>
    rw [lowerStmt, lowerAssign, hname] at hs
    obtain ⟨l, k₂, hl, hs⟩ := Gives.bind (x := lowerExpr sc (some ty) e) hs
    obtain ⟨o, _, hs⟩ := hs.lift_bind
    obtain ⟨object, _, hs⟩ := hs.lift_bind
    obtain ⟨rfl, rfl⟩ := Gives.pure_iff.mp hs
    exact ⟨k, l, _, hl, (List.prefix_append _ _).isInfix⟩
  | toElement hname =>
    rw [lowerStmt, lowerArrayAssign] at hs
    obtain ⟨a, k₁, ha, hs⟩ := hs.bind
    obtain ⟨array, harray, hs⟩ := hs.lift_bind
    obtain ⟨element, helement, hs⟩ := hs.lift_bind
    obtain ⟨i, k₂, _, hs⟩ := hs.bind
    obtain ⟨place, _, hs⟩ := hs.lift_bind
    obtain ⟨l, k₃, hl, hs⟩ := hs.bind
    obtain ⟨o, _, hs⟩ := hs.lift_bind
    obtain ⟨rfl, rfl⟩ := Gives.pure_iff.mp hs
    have harrayTy : array.ty = .array ty := by
      have hty := lowerVar_ty hname ha
      rw [require_eq_ok harray] at hty
      exact Option.some.inj hty
    rw [elementTy, harrayTy] at helement
    obtain rfl : ty = element := Except.ok.inj helement
    exact ⟨k₂, l, _, hl, _, _, rfl⟩
  | returned hm hty =>
    subst hty
    rw [lowerStmt, lowerReturn, Scope.currentMethod, hm] at hs
    obtain ⟨l, k₂, hl, hs⟩ := Gives.bind (x := lowerExpr sc _ e) hs
    obtain ⟨o, _, hs⟩ := hs.lift_bind
    obtain ⟨rfl, rfl⟩ := Gives.pure_iff.mp hs
    exact ⟨k, l, _, hl, (List.prefix_append _ _).isInfix⟩

/-! ## Places in calls -/

/-- The type that the argument at an index is expected to have. -/
def Formals.tyAt? (formals : Formals) (n : Nat) : Option Ty :=
  match formals with
  | .plain tys => tys[n]?
  | .varargs tys _ => some (tys[n]?.getD formals.packedElement)

theorem tyAt_zero (formals : Formals) : formals.tyAt? 0 = formals.hint? := by
  match formals with
  | .plain [] | .plain (_ :: _) | .varargs [] _ | .varargs (_ :: _) _ => rfl

theorem tyAt_succ (formals : Formals) (n : Nat) :
    formals.tyAt? (n + 1) = formals.next.tyAt? n := by
  match formals with
  | .plain [] | .plain (_ :: _) | .varargs [] _ | .varargs (_ :: _) _ => rfl

/-- An argument is lowered for the type of its parameter, and its code comes with the arguments that
have a parameter of their own or with those that are packed. -/
theorem argument_lowered : ∀ {args : List Expr} {formals : Formals} {n : Nat} {k k' : Counters}
    {a : Arguments}, args[n]? = some e → formals.tyAt? n = some ty →
      Gives (lowerArgs sc formals args) k a k' →
      ∃ k₁ l k₂, Gives (lowerExpr sc (some ty) e) k₁ l k₂ ∧ (l.code <:+: a.code ∨ l ∈ a.packed)
  | first :: rest, formals, n, k, k', a, he, hty, h => by
    rw [lowerArgs, Arguments.cons] at h
    obtain ⟨l, k₁, hl, h⟩ := h.bind
    -- what the argument comes in front of, and where its own code goes
    obtain ⟨more, k₂, hmore, hcode, hpacked, hself⟩ : ∃ more k₂,
        Gives (lowerArgs sc formals.next rest) k₁ more k₂ ∧ more.code <:+: a.code ∧
          more.packed ⊆ a.packed ∧ (l.code <:+: a.code ∨ l ∈ a.packed) := by
      by_cases hkind : formals.isPacked
      · rw [if_pos hkind] at h
        obtain ⟨more, k₂, hmore, h⟩ := h.bind
        obtain ⟨rfl, rfl⟩ := Gives.pure_iff.mp h
        exact ⟨more, _, hmore, List.infix_rfl, List.subset_cons_self _ _, .inr List.mem_cons_self⟩
      · rw [if_neg hkind] at h
        obtain ⟨o, _, h⟩ := h.lift_bind
        obtain ⟨more, k₂, hmore, h⟩ := h.bind
        obtain ⟨rfl, rfl⟩ := Gives.pure_iff.mp h
        exact ⟨more, _, hmore, (List.suffix_append _ _).isInfix, List.Subset.refl _,
          .inl (List.prefix_append _ _).isInfix⟩
    cases n with
    | zero =>
      cases he
      rw [tyAt_zero] at hty
      rw [hty] at hl
      exact ⟨k, l, k₁, hl, hself⟩
    | succ n =>
      rw [tyAt_succ] at hty
      replace he : rest[n]? = some e := he
      obtain ⟨k₃, l', k₄, hl', hplace⟩ := argument_lowered he hty hmore
      exact ⟨k₃, l', k₄, hl', hplace.imp (·.trans hcode) (hpacked ·)⟩

theorem lowerArgs_plain_packed : ∀ {args : List Expr} {tys : List Ty} {k k' : Counters}
    {a : Arguments}, Gives (lowerArgs sc (.plain tys) args) k a k' → a.packed = []
  | [], tys, k, k', a, h => by
    obtain ⟨rfl, rfl⟩ := Gives.pure_iff.mp h
    rfl
  | first :: rest, tys, k, k', a, h => by
    rw [lowerArgs, Arguments.cons] at h
    obtain ⟨l, k₁, _, h⟩ := h.bind
    obtain ⟨o, _, h⟩ := Gives.lift_bind h
    obtain ⟨more, k₂, hmore, h⟩ := h.bind
    obtain ⟨rfl, rfl⟩ := Gives.pure_iff.mp h
    show more.packed = []
    exact lowerArgs_plain_packed hmore

theorem infix_packedCode {array : Operand} {items : List Lowered} {values : List Operand}
    {item : Lowered} (h : items.map (·.operand) = values.map some) (hitem : item ∈ items) :
    item.code <:+: packedCode array element items values := by
  have hlength := length_of_operands h
  obtain ⟨i, hi, rfl⟩ := List.getElem_of_mem hitem
  have hvalue : i < values.length := hlength ▸ hi
  have hzip : i < (items.zip values).length := by
    rw [List.length_zip]
    omega
  have hmem : items[i].code ++ [elementStore array element i values[i]] ∈
      (items.zip values).mapIdx fun i p => p.1.code ++ [elementStore array element i p.2] := by
    refine List.mem_mapIdx.mpr ⟨i, hzip, ?_⟩
    rw [List.getElem_zip]
  refine List.infix_cons ?_
  exact ((List.prefix_append _ _).isInfix).trans (List.infix_of_mem_flatten hmem)

theorem packArguments_contains {array : Ty} {items : List Lowered} {item l : Lowered}
    (h : Gives (packArguments array (packedTy array) items) k l k') (hitem : item ∈ items) :
    item.code <:+: l.code := by
  obtain ⟨rfl, _, rfl⟩ | ⟨_, hpack⟩ := packArguments_gives h
  · cases List.mem_singleton.mp hitem
    exact List.infix_rfl
  · obtain ⟨values, hvalues, _, rfl, rfl⟩ := packArray_stores hpack
    exact infix_packedCode hvalues hitem

theorem call_argument_lowered {hint : Option Ty} {target : Expr} {method : String}
    {args : List Expr} {n : Nat} {k₀ : Counters} {targetCode : List Instr} {object : Operand}
    {call : Lowered}
    (htarget : Gives (lowerTarget sc target (lowerExpr sc none target)) k (targetCode, object) k₀)
    (he : args[n]? = some e)
    (hty : (Formals.ofSignature? (sc.ownSignature? object method)).tyAt? n = some ty)
    (h : Gives (lowerExpr sc hint (.call target method args)) k call k' ∨
      Gives (lowerEffect sc (.call target method args)) k call k') :
    ∃ k₁ l k₂, Gives (lowerExpr sc (some ty) e) k₁ l k₂ ∧ l.code <:+: call.code := by
  obtain ⟨expected, discard, hcall⟩ := lowerCall_of_call h
  obtain ⟨a, k₁, code, operands, k₂, c, i, ha, hclose, hcode, _, _⟩ :=
    lowerCall_gives htarget rfl hcall
  obtain ⟨k₃, l, k₄, hl, hplace⟩ := argument_lowered he hty ha
  refine ⟨k₃, l, k₄, hl, ?_⟩
  have hpart : l.code <:+: code := by
    cases hformals : Formals.ofSignature? (sc.ownSignature? object method) with
    | plain tys =>
      rw [hformals] at ha hclose
      obtain ⟨hpair, rfl⟩ := Gives.pure_iff.mp hclose
      cases hpair
      rw [lowerArgs_plain_packed ha] at hplace
      exact hplace.resolve_right List.not_mem_nil
    | varargs tys array =>
      rw [hformals] at hclose
      obtain ⟨packed, o, hpacked, _, rfl, rfl⟩ := close_varargs hclose
      rcases hplace with hown | hleft
      · exact hown.trans (List.prefix_append _ _).isInfix
      · exact (packArguments_contains hpacked hleft).trans (List.suffix_append _ _).isInfix
  rw [hcode, List.append_assoc]
  exact (hpart.trans (List.prefix_append _ _).isInfix).trans (List.suffix_append _ _).isInfix

/-! ## Literals in their places -/

/-- Wherever an array literal stands, in parentheses or not, it is lowered for the array type that
is expected there, and allocated for the type of its first item. -/
theorem literal_element_type {sc : Scope} {element : Ty} {literal : Expr} {elements : List Expr}
    (hliteral : literal.stripParens = .arrayLiteral elements) :
    (∀ k l k', Gives (lowerExpr sc (some (.array element)) literal) k l k' →
      LowersLiteral sc element elements k l) ∧
    (∀ s k code k', Expects sc s literal (.array element) → Gives (lowerStmt sc s) k code k' →
      ∃ k₁ l, LowersLiteral sc element elements k₁ l ∧ l.code <:+: code) ∧
    (∀ hint target method args n k k₀ targetCode object call k',
      Gives (lowerTarget sc target (lowerExpr sc none target)) k (targetCode, object) k₀ →
      args[n]? = some literal →
      (Formals.ofSignature? (sc.ownSignature? object method)).tyAt? n = some (.array element) →
      Gives (lowerExpr sc hint (.call target method args)) k call k' ∨
        Gives (lowerEffect sc (.call target method args)) k call k' →
      ∃ k₁ l, LowersLiteral sc element elements k₁ l ∧ l.code <:+: call.code) := by
  refine ⟨fun k l k' h => lowersLiteral hliteral h, fun s k code k' hplace h => ?_,
    fun hint target method args n k k₀ targetCode object call k' htarget harg hty h => ?_⟩
  · obtain ⟨k₁, l, k₂, hl, hpart⟩ := hplace.lowered h
    exact ⟨k₁, l, lowersLiteral hliteral hl, hpart⟩
  · obtain ⟨k₁, l, k₂, hl, hpart⟩ := call_argument_lowered htarget harg hty h
    exact ⟨k₁, l, lowersLiteral hliteral hl, hpart⟩

/-- The scope of a method in a class A that extends an imported class B. -/
def extendingScope : Scope :=
  { symbols := { className := "A", superclass := some "B", imports := ["B"], fields := []
                 methods := [] }
    method := some { name := "f", returnTy := .array (.object "B") } }

theorem literal_element_type_superclass_first :
    let literal : Expr := .arrayLiteral [.newObject "B", .newObject "A"]
    ∃ code, Gives (lowerStmt extendingScope (.ret (some literal))) {} code ⟨3, 0⟩ ∧
      Expects extendingScope (.ret (some literal)) literal (.array (.object "B")) ∧
      (∃ k l, LowersLiteral extendingScope (.object "B") [.newObject "B", .newObject "A"] k l ∧
        l.code <:+: code) ∧
      ∃ l, Gives (lowerExpr extendingScope (some (.array (.object "B"))) literal) {} l ⟨3, 0⟩ ∧
        l.operand = some (.temp 2 (.array (.object "B"))) := by
  intro literal
  have hstmt : Gives (lowerStmt extendingScope (.ret (some literal))) {} _ ⟨3, 0⟩ := rfl
  have hplace : Expects extendingScope (.ret (some literal)) literal (.array (.object "B")) :=
    .returned rfl rfl
  obtain ⟨l, hlowered⟩ : ∃ l, Gives (lowerExpr extendingScope (some (.array (.object "B"))) literal)
    {} l ⟨3, 0⟩ := ⟨_, rfl⟩
  obtain ⟨hexpr, hstmts, _⟩ := @literal_element_type extendingScope (.object "B") literal _ rfl
  refine ⟨_, hstmt, hplace, hstmts _ _ _ _ hplace hstmt, l, hlowered, ?_⟩
  cases hexpr _ _ _ hlowered with
  | @intro items values k₁ actual array hitems hvalues _ hexpected hfresh _ =>
    obtain ⟨rfl, rfl⟩ := hitems.unique (show Gives _ _ [_, _] ⟨2, 0⟩ from rfl)
    obtain rfl : [.temp 0 (.object "B"), .temp 1 (.object "A")] = values :=
      (List.map_inj_right fun _ _ => Option.some.inj).mp hvalues
    obtain rfl : actual = .object "B" := hexpected.mpr fun first hfirst => by
      cases hfirst
      rfl
    exact congrArg some hfresh.1

/-- With an object of the subclass first, an array of the subclass is returned where one of the
superclass is expected. The second item, which is no object of the subclass, is stored into it. -/
theorem literal_element_type_subclass_first :
    let literal : Expr := .arrayLiteral [.newObject "A", .newObject "B"]
    let array : Operand := .temp 2 (.array (.object "A"))
    Expects extendingScope (.ret (some literal)) literal (.array (.object "B")) ∧
      array.ty ≠ .array (.object "B") ∧
      Gives (lowerStmt extendingScope (.ret (some literal))) {}
        [.assignVar array (.call (.newArray (.object "A") (.int 2))),
          .assignVar (.temp 0 (.object "A")) (.call (.newObject "A")),
          .call (.constructor (.temp 0 (.object "A"))),
          elementStore array (.object "A") 0 (.temp 0 (.object "A")),
          .assignVar (.temp 1 (.object "B")) (.call (.newObject "B")),
          .call (.constructor (.temp 1 (.object "B"))),
          elementStore array (.object "A") 1 (.temp 1 (.object "B")),
          .ret (some array)] ⟨3, 0⟩ :=
  ⟨.returned rfl rfl, by decide, rfl⟩

end MiniJava.Lowering
