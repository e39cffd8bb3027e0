import MiniJava.Proofs.Lowering.Expressions

/-!
# Lowered items of arrays

The items of an array literal, and arguments that are packed, are stored one after another into an
array that is in a temporary. No code of an item writes that temporary, for it is numbered after
all the items are lowered.
-/

namespace MiniJava.Semantics

open Ir (Operand Instr)
open Lowering

variable {c : Context} {d : Method} {m : Ir.Method}

/-- The code of an expression in a method computes its value. -/
def LowersExpr (c : Context) (d : Method) (m : Ir.Method) (hint : Option Ty) (e : Expr) : Prop :=
  Lowers c m (lowerExpr (scopeOf c d) hint e) (typeOf c hint e) (eval c · hint e)

/-- Where code that has no value leads. -/
structure Passed (low high : Nat) (vars : Vars) (place : Nat) (s : IrState) : Prop where
  pc : s.pc = place
  frame : Frame low high vars s.vars

theorem Frame.read_above {P : Platform} {low high id : Nat} {ty : Ty} {vars vars' : Vars}
    (h : Frame low high vars vars') (hid : high ≤ id) :
    readOperand P vars' (.temp id ty) = readOperand P vars (.temp id ty) := by
  rw [readOperand_of_key rfl, readOperand_of_key rfl,
    h (.temp id) fun _ hid' => by cases hid'; exact .inr hid]

theorem store_computes {P : Platform} {s : IrState} {array place value : Operand} {ty : Ty}
    {a i v : Value}
    (hat : m.instructions[s.pc]? = some (.assign (.element array place ty) (.operand value)))
    (ha : readOperand P s.vars array = pure a) (hi : readOperand P s.vars place = pure i)
    (hv : readOperand P s.vars value = pure v) :
    (irMachine P m).Computes 1 s (P.expect ty v >>= P.storeElement a i) fun _ t =>
      t = { s with pc := s.pc + 1 } := by
  refine .single ?_ fun _ _ _ _ => rfl
  rw [irMachine_at hat, irInstr, ha, pure_bind, hi, pure_bind, irValue, hv, pure_bind, bind_assoc]

/-! ## Items -/

/-- Lowered items fit their expressions, and the code that stores them into an array evaluates and
stores them as the source does. -/
structure ItemsLowered (c : Context) (m : Ir.Method) (hint : Option Ty) (es : List Expr)
    (k k' : Counters) (items : List Lowered) : Prop where
  temps_le : k.temps ≤ k'.temps
  length : items.length = es.length
  ty : literalElementTy hint items = itemTy c hint es
  stores : ∀ {element : Ty} {id index : Nat} {code : List Instr} {env : Locals} {vars : Vars}
    {pc : Nat} {array : Value}, storeItems (.temp id (.array element)) element index items = .ok code →
      k'.temps ≤ id → Placed m.instructions pc code → Agrees c env vars →
      readOperand c.platform vars (.temp id (.array element)) = pure array →
      (irMachine c.platform m).Computes 0 { pc, vars }
        (evalItems c env hint element array index es)
        (fun _ => Passed k.temps k'.temps vars (pc + code.length))

/-- Lowering gives code for items in a method. -/
def LowersItems (c : Context) (d : Method) (m : Ir.Method) (hint : Option Ty) (es : List Expr) :
    Prop :=
  ∀ ⦃k items k'⦄, Gives (lowerItems (scopeOf c d) hint es) k items k' →
    ItemsLowered c m hint es k k' items

theorem lowersItems_nil (hint : Option Ty) : LowersItems c d m hint [] := by
  intro k items k' h
  obtain ⟨rfl, rfl⟩ := Gives.pure_iff.mp h
  refine ⟨Nat.le_refl _, rfl, rfl, fun hcode _ _ _ _ => ?_⟩
  cases hcode
  exact .pure ⟨rfl, .refl _ _ _⟩

theorem lowersItems_cons {hint : Option Ty} {e : Expr} {rest : List Expr}
    (he : LowersExpr c d m hint e) (hrest : LowersItems c d m hint rest) :
    LowersItems c d m hint (e :: rest) := by
  intro k items k' h
  rw [lowerItems] at h
  obtain ⟨item, k₁, gitem, h⟩ := h.bind
  obtain ⟨more, k₂, gmore, h⟩ := h.bind
  obtain ⟨rfl, rfl⟩ := Gives.pure_iff.mp h
  have hfits := (he gitem).fits
  have hmore := hrest gmore
  refine ⟨Nat.le_trans hfits.temps_le hmore.temps_le, congrArg (· + 1) hmore.length, ?_, ?_⟩
  · rw [itemTy, ← hfits.ty]
    cases h : item.operand with
    | none => simp only [literalElementTy, List.head?_cons, Option.bind_some, h]; rfl
    | some o => simp only [literalElementTy, List.head?_cons, Option.bind_some, h]; rfl
  · intro element id index code env vars pc array hcode hid hplaced hagree harray
    rw [storeItems] at hcode
    obtain ⟨value, hvalue, hcode⟩ := except_bind hcode
    obtain ⟨stores, hstores, hcode⟩ := except_bind hcode
    cases hcode
    have hle := hmore.temps_le
    show (irMachine c.platform m).Computes 0 _ (eval c env hint e >>= fun v =>
      c.platform.expect element v >>= fun item =>
        c.platform.storeElement array (.int (.ofNat index)) item >>= fun _ =>
          evalItems c env hint element array (index + 1) rest) _
    refine he.operand gitem (require_eq_ok hvalue) hplaced.left hagree fun v t hpc hframe hv => ?_
    rw [← bind_assoc]
    have harray' := (hframe.read_above (Nat.le_trans hle hid)).trans harray
    have hstore := hplaced.right
    rw [← hpc] at hstore
    refine ((store_computes hstore.head harray' rfl hv).mono (Nat.zero_le 1)
      fun _ _ h => h).bind fun _ t' ht => ?_
    subst ht
    refine (hmore.stores hstores hid hstore.tail (hagree.frame hframe) harray').mono (Nat.le_refl 0)
      fun _ u hu => ⟨?_, hframe.trans hu.frame hfits.temps_le hle⟩
    rw [hu.pc, hpc, List.length_append, List.length_cons]
    omega

/-! ## Arrays -/

theorem newArray_ofNat (P : Platform) (element : Ty) {n : Nat} (h : n < 2147483648) :
    P.newArray element (.int (.ofNat n)) =
      alloc (.array (P.elementClass element) (List.replicate n (P.zero element))) := by
  have hn : (Int32.ofNat n).toInt = n := Int32.toInt_ofNat_of_lt h
  have hneg : ¬ Int32.ofNat n < 0 := by
    rw [Int32.lt_iff_toInt_lt, hn, Int32.toInt_zero]
    omega
  rw [Platform.newArray, newArray, if_neg hneg, hn, Int.toNat_natCast]

theorem packArray_gives {element : Ty} {items : List Lowered} {k k' : Counters} {l : Lowered}
    (h : Gives (packArray element items) k l k') :
    items.length < 2147483648 ∧ k' = { k with temps := k.temps + 1 } ∧
      l.operand = some (.temp k.temps (.array element)) ∧
      ∃ stores, storeItems (.temp k.temps (.array element)) element 0 items = .ok stores ∧
        l.code = .assignVar (.temp k.temps (.array element))
          (.call (.newArray element (.int (.ofNat items.length)))) :: stores := by
  rw [packArray] at h
  by_cases hlong : 2147483648 ≤ items.length
  · rw [if_pos hlong] at h
    exact (Gives.throw_iff.mp h.bind.choose_spec.choose_spec.1).elim
  · rw [if_neg hlong] at h
    obtain ⟨array, k₁, htemp, h⟩ := h.bind
    obtain ⟨rfl, rfl⟩ := gives_freshTemp htemp
    obtain ⟨stores, hstores, h⟩ := h.lift_bind
    obtain ⟨rfl, rfl⟩ := Gives.pure_iff.mp h
    exact ⟨Nat.lt_of_not_le hlong, rfl, rfl, stores, hstores, rfl⟩

/-- An array of items is allocated, then the items are stored. -/
theorem packArray_lowered {hint : Option Ty} {es : List Expr} {k k₁ k₂ : Counters} {element : Ty}
    {items : List Lowered} {l : Lowered} (hitems : ItemsLowered c m hint es k k₁ items)
    (h : Gives (packArray element items) k₁ l k₂) :
    ExprLowered c m k k₂ l (some (.array element)) (fun env => do
      let array ← c.allocate element es.length
      evalItems c env hint element array 0 es
      return array) := by
  obtain ⟨hlength, rfl, hoperand, stores, hstores, hcode⟩ := packArray_gives h
  have hle := hitems.temps_le
  refine ⟨⟨Nat.le_succ_of_le hle, by rw [hoperand]; rfl, fun o ho => ?_⟩,
    fun {env vars pc} hplaced hagree => ?_⟩
  · rw [hoperand] at ho
    cases ho
    exact Nat.lt_succ_self _
  · rw [hcode] at hplaced ⊢
    have halloc : irValue c.platform vars
        (.call (.newArray element (.int (.ofNat items.length)))) =
          c.allocate element es.length := by
      show (c.platform.newArray element (.int (.ofNat items.length)) >>=
        c.platform.expect (.array element)) = _
      rw [bind_expect fun _ _ _ => newArray_holds, newArray_ofNat _ _ hlength, hitems.length]
      rfl
    refine ((assign_computes hplaced.head halloc fun v w w' hv => ?_).mono (Nat.zero_le 1)
      fun _ _ h => h).bind fun array t ⟨hpc, hvars, hholds⟩ => ?_
    · cases hv
      exact c.platform.holds_ref _ _ rfl
    · obtain ⟨tpc, tvars⟩ := t
      subst hpc hvars
      have hset := Frame.set k₁.temps vars array
      refine (hitems.stores hstores (Nat.le_refl _) hplaced.tail (hagree.frame hset)
        (read_temp hholds)).bind fun _ u hu => .pure ⟨?_, ?_, fun o ho => ?_⟩
      · rw [hu.pc, List.length_cons]
        omega
      · exact (hset.widen hle (Nat.le_refl _)).join (hu.frame.widen (Nat.le_refl _) (Nat.le_succ _))
      · rw [hoperand] at ho
        cases ho
        rw [hu.frame.read_above (Nat.le_refl _), read_temp hholds]

end MiniJava.Semantics
