import MiniJava.Proofs.Lowering.Shape
import MiniJava.Proofs.Lowering.Raising

/-!
# Arguments of calls with variable arguments

A call to a method of the class passes one operand for each declared parameter. The arguments that
have a parameter of their own are passed as they are; those left over are stored, in their order,
into a fresh array, unless there is a single one that is such an array already. The code of every
argument stands once in the code of the call, in source order.
-/

namespace MiniJava.Lowering

open HasNumbers (Below)
open Ir (Call Instr Operand)
open Semantics (close_varargs lowerArgs_packed lowerCall_parts packArguments_gives packArray_gives
  packedTy targetKind)

variable {sc : Scope} {element : Ty} {k k' : Counters}

/-! ## Stores into the array -/

/-- The store of a value into an array, at an index that is known. -/
def elementStore (array : Operand) (element : Ty) (index : Nat) (value : Operand) : Instr :=
  .assign (.element array (.int (.ofNat index)) element) (.operand value)

/-- Whether an instruction assigns a temporary, or an element of the array in it. -/
def writesTemp (id : Nat) : Instr → Bool
  | .assign (.var (.temp n _)) _ | .assign (.element (.temp n _) _ _) _ => n == id
  | _ => false

theorem not_writesTemp_of_below {i : Instr} (h : Below k i) : writesTemp k.temps i = false := by
  rw [writesTemp.eq_def]
  split
  · exact beq_false_of_ne (Nat.ne_of_lt h.1)
  · exact beq_false_of_ne (Nat.ne_of_lt h.1.1)
  · rfl

theorem filter_writesTemp_of_below {code : List Instr} (h : Below k code) :
    code.filter (writesTemp k.temps) = [] :=
  List.filter_eq_nil_iff.mpr fun i hi => by
    rw [not_writesTemp_of_below (h i hi)]
    exact Bool.false_ne_true

theorem below_codes {items : List Lowered} (h : Below k items) :
    Below k (items.map (·.code)).flatten := by
  intro i hi
  obtain ⟨code, hcode, hi⟩ := List.mem_flatten.mp hi
  obtain ⟨item, hitem, rfl⟩ := List.mem_map.mp hcode
  exact (h item hitem).1 i hi

theorem length_of_operands {items : List Lowered} {values : List Operand}
    (h : items.map (·.operand) = values.map some) : items.length = values.length := by
  rw [← List.length_map (·.operand), h, List.length_map]

theorem storeItems_eq_ok {array : Operand} : ∀ {index : Nat} {items : List Lowered}
    {stores : List Instr}, storeItems array element index items = .ok stores →
      ∃ values, items.map (·.operand) = values.map some ∧
        stores = ((items.zip values).mapIdx fun i p =>
          p.1.code ++ [elementStore array element (index + i) p.2]).flatten
  | _, [], stores, h => by
    cases h
    exact ⟨[], rfl, rfl⟩
  | index, item :: rest, stores, h => by
    obtain ⟨value, hvalue, h⟩ := except_bind h
    obtain ⟨more, hmore, h⟩ := except_bind h
    cases h
    obtain ⟨values, hvalues, rfl⟩ := storeItems_eq_ok hmore
    refine ⟨value :: values, ?_, ?_⟩
    · rw [List.map_cons, List.map_cons, hvalues, require_eq_ok hvalue]
    · rw [List.zip_cons_cons, List.mapIdx_cons, List.flatten_cons, List.append_assoc]
      simp only [Nat.add_zero, Nat.add_assoc, Nat.add_comm 1]
      rfl

/-- Among items whose code does not touch the array, only the stores do, one for each item. -/
theorem filter_stores {id : Nat} {items : List Lowered}
    (h : ∀ item ∈ items, item.code.filter (writesTemp id) = []) :
    ∀ (index : Nat) {values : List Operand}, items.length = values.length →
      ((items.zip values).mapIdx fun i p => p.1.code ++
          [elementStore (.temp id (.array element)) element (index + i) p.2]).flatten.filter
          (writesTemp id) =
        values.mapIdx fun i value =>
          elementStore (.temp id (.array element)) element (index + i) value := by
  induction items with
  | nil =>
    intro index values hlength
    obtain rfl := List.eq_nil_of_length_eq_zero hlength.symm
    rfl
  | cons item rest ih =>
    intro index values hlength
    match values with
    | value :: values =>
      have hrest := ih (fun item' hitem => h item' (List.mem_cons_of_mem _ hitem))
        (index + 1) (Nat.succ.inj hlength)
      have hone : writesTemp id
          (elementStore (.temp id (.array element)) element (index + 0) value) = true :=
        beq_self_eq_true id
      rw [List.zip_cons_cons, List.mapIdx_cons, List.mapIdx_cons, List.flatten_cons,
        List.filter_append, List.filter_append, h item List.mem_cons_self, List.nil_append,
        List.filter_cons_of_pos hone, List.filter_nil]
      simp only [Nat.add_assoc, Nat.add_comm 1] at hrest ⊢
      rw [hrest]
      rfl

/-- The code of an array that holds given items: its allocation with their number as its length,
then the code of each item with the store of its operand behind it. -/
def packedCode (array : Operand) (element : Ty) (items : List Lowered) (values : List Operand) :
    List Instr :=
  .assignVar array (.call (.newArray element (.int (.ofNat values.length)))) ::
    ((items.zip values).mapIdx fun i p => p.1.code ++ [elementStore array element i p.2]).flatten

theorem filter_packedCode {items : List Lowered} {values : List Operand} (h : Below k items)
    (hvalues : items.map (·.operand) = values.map some) :
    (packedCode (.temp k.temps (.array element)) element items values).filter
        (writesTemp k.temps) =
      .assignVar (.temp k.temps (.array element))
          (.call (.newArray element (.int (.ofNat values.length)))) ::
        values.mapIdx (elementStore (.temp k.temps (.array element)) element) := by
  have hallocates : writesTemp k.temps (.assignVar (.temp k.temps (.array element))
      (.call (.newArray element (.int (.ofNat values.length))))) = true := beq_self_eq_true _
  have hstores := @filter_stores element k.temps items
    (fun item hitem => filter_writesTemp_of_below (h item hitem).1) 0 values
    (length_of_operands hvalues)
  simp only [Nat.zero_add] at hstores
  rw [packedCode, List.filter_cons_of_pos hallocates, hstores]

/-- An array of items has a number for each of them, as its length and as the indices. -/
theorem packArray_stores {items : List Lowered} {l : Lowered}
    (h : Gives (packArray element items) k l k') :
    ∃ values, items.map (·.operand) = values.map some ∧
      (∀ n ≤ values.length, (Int32.ofNat n).toInt = n) ∧
      l = { code := packedCode (.temp k.temps (.array element)) element items values
            operand := some (.temp k.temps (.array element)) } ∧
      k' = { k with temps := k.temps + 1 } := by
  obtain ⟨hlength, rfl, htemp, stores, hstores, hcode⟩ := packArray_gives h
  obtain ⟨values, hvalues, rfl⟩ := storeItems_eq_ok hstores
  rw [length_of_operands hvalues] at hlength hcode
  simp only [Nat.zero_add] at hcode
  refine ⟨values, hvalues, fun n hn => ?_, ?_, rfl⟩
  · exact Int32.toInt_ofNat_of_lt (Nat.lt_of_le_of_lt hn hlength)
  · obtain ⟨code, operand⟩ := l
    obtain rfl : operand = _ := htemp
    obtain rfl : code = _ := hcode
    rfl

/-! ## The arguments -/

theorem steady_gives {α : Type} [HasNumbers α] {x : Lower α} {a : α} (hx : Steady x)
    (h : Gives x k a k') : k ≤ k' ∧ Below k' a := by
  have hrun : (x.run).run k = (.ok a, k') := h
  obtain ⟨hle, hbelow, _⟩ := hx ⟨0, 0⟩ k
  rw [hrun] at hle hbelow
  exact ⟨hle, hbelow a rfl⟩

theorem lowerItems_mapM {hint : Option Ty} (es : List Expr) :
    lowerItems sc hint es = es.mapM (lowerExpr sc hint) := by
  induction es with
  | nil => rw [lowerItems, List.mapM_nil]
  | cons e rest ih => rw [lowerItems, List.mapM_cons, ih]

theorem lowerArgs_varargs {array : Ty} : ∀ {tys : List Ty} {args : List Expr} {k k' : Counters}
    {a : Arguments}, tys.length ≤ args.length →
      Gives (lowerArgs sc (.varargs tys array) args) k a k' →
      ∃ first k₁,
        Gives ((tys.zip args).mapM fun p => lowerExpr sc (some p.1) p.2) k first k₁ ∧
        Gives ((args.drop tys.length).mapM (lowerExpr sc (some (packedTy array)))) k₁ a.packed k' ∧
        a.code = (first.map (·.code)).flatten ∧ first.map (·.operand) = a.operands.map some ∧
        a.operands.length = tys.length
  | [], args, k, k', a, _, h => by
    obtain ⟨items, hitems, rfl⟩ := lowerArgs_packed h
    rw [lowerItems_mapM] at hitems
    exact ⟨[], k, Gives.pure_iff.mpr ⟨rfl, rfl⟩, hitems, rfl, rfl, rfl⟩
  | ty :: tys, e :: rest, k, k', a, hlength, h => by
    rw [lowerArgs, Arguments.cons] at h
    obtain ⟨l, k₁, hl, h⟩ := h.bind
    obtain ⟨o, ho, h⟩ := Gives.lift_bind h
    obtain ⟨more, k₂, hmore, h⟩ := h.bind
    obtain ⟨rfl, rfl⟩ := Gives.pure_iff.mp h
    obtain ⟨first, k₃, hfirst, hfurther, hcode, hoperands, hsame⟩ :=
      lowerArgs_varargs (Nat.le_of_succ_le_succ hlength) hmore
    refine ⟨l :: first, k₃, ?_, hfurther, ?_, ?_, congrArg (· + 1) hsame⟩
    · rw [List.zip_cons_cons, List.mapM_cons, Gives.bind_iff]
      exact ⟨l, k₁, hl, Gives.bind_iff.mpr ⟨first, k₃, hfirst, Gives.pure_iff.mpr ⟨rfl, rfl⟩⟩⟩
    · rw [List.map_cons, List.flatten_cons, ← hcode]
    · rw [List.map_cons, List.map_cons, ← hoperands, require_eq_ok ho]

theorem mapM_lowerExpr_gives {α : Type} {f : α → Option Ty × Expr} : ∀ {l : List α}
    {k k' : Counters} {items : List Lowered},
    Gives (l.mapM fun a => lowerExpr sc (f a).1 (f a).2) k items k' →
      items.length = l.length ∧ k ≤ k' ∧ Below k' items
  | [], k, k', items, h => by
    obtain ⟨rfl, rfl⟩ := Gives.pure_iff.mp h
    exact ⟨rfl, Counters.le_refl k, below_nil⟩
  | a :: rest, k, k', items, h => by
    rw [List.mapM_cons] at h
    obtain ⟨item, k₁, hitem, h⟩ := h.bind
    obtain ⟨more, k₂, hmore, h⟩ := h.bind
    obtain ⟨rfl, rfl⟩ := Gives.pure_iff.mp h
    obtain ⟨hle, hbelow⟩ := steady_gives (steady_lowerExpr sc (f a).1 (f a).2) hitem
    obtain ⟨hlength, hle', hbelow'⟩ := mapM_lowerExpr_gives hmore
    exact ⟨congrArg (· + 1) hlength, Counters.le_trans hle hle',
      below_cons.mpr ⟨HasNumbers.mono hle' hbelow, hbelow'⟩⟩

/-- Arguments that are left over as the last operand of a call, and the code for them. An array
that is made for them is in the temporary of number `id`. -/
structure PassedFurther (element : Ty) (id : Nat) (further : List Lowered) (values : List Operand)
    (code : List Instr) (last : Operand) : Prop where
  operands : further.map (·.operand) = values.map some
  /-- A single argument that is an array of the declared type is passed itself. -/
  alone : values.map (·.ty) = [.array element] →
    values = [last] ∧ code = (further.map (·.code)).flatten
  /-- All others are stored into a new array, whose length and indices are in range. -/
  packed : values.map (·.ty) ≠ [.array element] →
    last = .temp id (.array element) ∧ (∀ n ≤ values.length, (Int32.ofNat n).toInt = n) ∧
    code = packedCode last element further values

theorem packArguments_further {further : List Lowered} {l : Lowered} {last : Operand}
    (h : Gives (packArguments (.array element) element further) k l k')
    (hlast : l.operand = some last) :
    ∃ values, PassedFurther element k.temps further values l.code last ∧
      (values.map (·.ty) ≠ [.array element] → k' = { k with temps := k.temps + 1 }) := by
  obtain ⟨rfl, hty, rfl⟩ | ⟨hnot, hpack⟩ := packArguments_gives h
  · rw [hlast] at hty
    have hty' : last.ty = .array element := Option.some.inj hty
    refine ⟨[last], ⟨congrArg ([·]) hlast, fun _ => ⟨rfl, (List.append_nil _).symm⟩, fun h => ?_⟩,
      fun h => ?_⟩
    · exact absurd (congrArg ([·]) hty') h
    · exact absurd (congrArg ([·]) hty') h
  · obtain ⟨values, hvalues, hnumbers, rfl, rfl⟩ := packArray_stores hpack
    obtain rfl : _ = last := Option.some.inj hlast
    refine ⟨values, ⟨hvalues, fun hone => ?_, fun _ => ⟨rfl, hnumbers, rfl⟩⟩, fun _ => rfl⟩
    obtain ⟨value, rfl, hty⟩ := List.map_eq_singleton_iff.mp hone
    obtain ⟨item, rfl, hitem⟩ := List.map_eq_singleton_iff.mp hvalues
    exact absurd (by rw [hitem, Option.map_some, hty]) (hnot item rfl)

/-! ## The call -/

/-- An instruction carries out a call, and drops its result or keeps it in a temporary that was
not given out. -/
def Performs (k : Counters) (call : Call) (i : Instr) : Prop :=
  i = .call call ∨ i = .assignVar (.temp k.temps call.returnTy) (.call call)

theorem Performs.filter_writesTemp {call : Call} {i : Instr} {id : Nat} (h : Performs k call i)
    (hid : id < k.temps) : [i].filter (writesTemp id) = [] := by
  rcases h with rfl | rfl
  · rfl
  · exact List.filter_cons_of_neg (by simpa [writesTemp, Instr.assignVar] using Nat.ne_of_gt hid)

/-- A call writes the array of its further arguments just where the array is filled. -/
theorem filter_varargsCode {before : List Instr} {further : List Lowered} {values : List Operand}
    {call : Call} {i : Instr} (hbefore : Below k before) (hfurther : Below k further)
    (hvalues : further.map (·.operand) = values.map some)
    (hperforms : Performs { k with temps := k.temps + 1 } call i) :
    (before ++ packedCode (.temp k.temps (.array element)) element further values ++ [i]).filter
        (writesTemp k.temps) =
      .assignVar (.temp k.temps (.array element))
          (.call (.newArray element (.int (.ofNat values.length)))) ::
        values.mapIdx (elementStore (.temp k.temps (.array element)) element) := by
  rw [List.filter_append, List.filter_append, filter_writesTemp_of_below hbefore,
    filter_packedCode hfurther hvalues, hperforms.filter_writesTemp (Nat.lt_succ_self _),
    List.nil_append, List.append_nil]

theorem lowerCall_gives {target : Lower (List Instr × Operand)} {method : String}
    {args : Formals → Lower Arguments} {expected : Option Ty} {discard : Bool} {k₁ : Counters}
    {targetCode : List Instr} {object : Operand} {l : Lowered} {signature : Option Signature}
    (htarget : Gives target k (targetCode, object) k₁)
    (hsignature : sc.ownSignature? object method = signature)
    (h : Gives (lowerCall sc target method args expected discard) k l k') :
    ∃ arguments k₂ code operands k₃ call i,
      Gives (args (.ofSignature? signature)) k₁ arguments k₂ ∧
      Gives (arguments.close (.ofSignature? signature)) k₂ (code, operands) k₃ ∧
      l.code = targetCode ++ code ++ [i] ∧ Performs k₃ call i ∧
      call = { kind := targetKind object, target := object, method := some method, args := operands
               returnTy := callReturnTy signature expected discard } := by
  subst hsignature
  obtain ⟨targetCode', object', k₁', arguments, k₂, code, operands, k₃, call, htarget', hargs, hclose,
    hcall, h⟩ := lowerCall_parts h
  obtain ⟨hpair, rfl⟩ := htarget.unique htarget'
  cases hpair
  by_cases hvoid : discard || call.returnTy.isVoid
  · rw [if_pos hvoid] at h
    obtain ⟨rfl, rfl⟩ := Gives.pure_iff.mp h
    exact ⟨arguments, k₂, code, operands, k₃, call, _, hargs, hclose, rfl, .inl rfl, hcall⟩
  · rw [if_neg hvoid] at h
    obtain ⟨rfl, rfl⟩ := gives_compute h
    exact ⟨arguments, k₂, code, operands, k₃, call, _, hargs, hclose, rfl, .inr rfl, hcall⟩

theorem lowerCall_of_call {hint : Option Ty} {target : Expr} {method : String} {args : List Expr}
    {l : Lowered} (h : Gives (lowerExpr sc hint (.call target method args)) k l k' ∨
      Gives (lowerEffect sc (.call target method args)) k l k') :
    ∃ expected discard, Gives (lowerCall sc
      (lowerTarget sc target (lowerExpr sc none target)) method
      (fun formals => lowerArgs sc formals args) expected discard) k l k' := by
  rcases h with h | h
  · rw [lowerExpr] at h
    exact ⟨_, _, h⟩
  · rw [lowerEffect] at h
    exact ⟨_, _, h⟩

theorem formals_varargs {s : Signature} {fixed : List Param} {last : Param}
    (hparams : s.params = fixed ++ [last]) (hlast : last.isVarargs = true) :
    Formals.ofSignature? (some s) = .varargs (fixed.map (·.ty)) last.ty := by
  have hvarargs : s.isVarargs = true := by
    rw [Signature.isVarargs, hparams, List.getLast?_concat]
    exact hlast
  simp only [Formals.ofSignature?, hvarargs, if_true, hparams, List.map_append, List.map_cons,
    List.map_nil, List.dropLast_concat, List.getLastD_concat]

/-- A call to a method of the class whose last parameter takes variable arguments passes one operand
for each parameter: those of the `first` arguments, and one for all `further` ones. Behind the code
of the target, that of every argument comes once, in source order, and then the call. The array, if
one is made, is in a temporary that nothing before it uses, and the whole code writes it just by the
allocation and by one store for each further argument. -/
theorem varargs_call_lowered {sc : Scope} {hint : Option Ty} {target : Expr} {method : String}
    {args : List Expr} {s : Signature} {fixed : List Param} {last : Param} {element : Ty}
    {k k₁ k' : Counters} {targetCode : List Instr} {object : Operand} {l : Lowered}
    (hs : sc.symbols.method? method = some s) (hparams : s.params = fixed ++ [last])
    (hlast : last.isVarargs = true) (hty : last.ty = .array element)
    (hargs : fixed.length ≤ args.length)
    (htarget : Gives (lowerTarget sc target (lowerExpr sc none target)) k (targetCode, object) k₁)
    (hown : sc.isOwn object = true)
    (h : Gives (lowerExpr sc hint (.call target method args)) k l k' ∨
      Gives (lowerEffect sc (.call target method args)) k l k') :
    ∃ first k₂ further k₃ values code operand call i,
      Gives (((fixed.map (·.ty)).zip args).mapM fun p => lowerExpr sc (some p.1) p.2) k₁ first k₂ ∧
      Gives ((args.drop fixed.length).mapM (lowerExpr sc (some element))) k₂ further k₃ ∧
      values.length = args.length - fixed.length ∧
      PassedFurther element k₃.temps further values code operand ∧
      l.code = targetCode ++ (first.map (·.code)).flatten ++ code ++ [i] ∧
      (i = .call call ∨ ∃ id, i = .assignVar (.temp id call.returnTy) (.call call)) ∧
      call.target = object ∧ call.method = some method ∧
      call.args.length = s.params.length ∧
      first.map (·.operand) = call.args.dropLast.map some ∧ call.args.getLast? = some operand ∧
      (k ≤ k₃ ∧ Below k₃ targetCode ∧ Below k₃ first ∧ Below k₃ further) ∧
      (values.map (·.ty) ≠ [.array element] → l.code.filter (writesTemp k₃.temps) =
        .assignVar operand (.call (.newArray element (.int (.ofNat values.length)))) ::
          values.mapIdx (elementStore operand element)) := by
  have hsignature : sc.ownSignature? object method = some s := by
    rw [Scope.ownSignature?, if_pos hown, hs]
  obtain ⟨expected, discard, hcall⟩ := lowerCall_of_call h
  obtain ⟨a, k₃, argCode, operands, k₄, call, i, ha, hclose, hcode, hperforms, rfl⟩ :=
    lowerCall_gives htarget hsignature hcall
  rw [formals_varargs hparams hlast, hty] at ha hclose
  rw [← List.length_map (·.ty)] at hargs
  obtain ⟨first, k₂, hfirst, hfurther, hfirstCode, hfirstOperands, harity⟩ :=
    lowerArgs_varargs hargs ha
  obtain ⟨packed, operand, hpacked, hoperand, rfl, rfl⟩ := close_varargs hclose
  obtain ⟨values, hpassed, hk₄⟩ := packArguments_further hpacked hoperand
  rw [List.length_map] at hfurther harity
  obtain ⟨hle₁, htargetBelow⟩ := steady_gives
    (steady_lowerTarget sc target (steady_lowerExpr sc none target)) htarget
  obtain ⟨_, hle₂, hfirstBelow⟩ :=
    mapM_lowerExpr_gives (f := fun p : Ty × Expr => (some p.1, p.2)) hfirst
  obtain ⟨hcount, hle₃, hfurtherBelow⟩ :=
    mapM_lowerExpr_gives (f := fun e => (some element, e)) hfurther
  have hcodeBelow : Below k₃ targetCode :=
    HasNumbers.mono (Counters.le_trans hle₂ hle₃) htargetBelow.1
  replace hfirstBelow : Below k₃ first := HasNumbers.mono hle₃ hfirstBelow
  rw [length_of_operands hpassed.operands, List.length_drop] at hcount
  rw [hfirstCode, ← List.append_assoc] at hcode
  have hle : k ≤ k₃ := Counters.le_trans hle₁ (Counters.le_trans hle₂ hle₃)
  refine ⟨first, k₂, a.packed, k₃, values, packed.code, operand, _, i, hfirst, hfurther, hcount,
    hpassed, hcode, hperforms.imp id fun h => ⟨_, h⟩, rfl, rfl, ?_, ?_, List.getLast?_concat,
    ⟨hle, hcodeBelow, hfirstBelow, hfurtherBelow⟩, ?_⟩
  · rw [List.length_append, harity, hparams, List.length_append]
    rfl
  · rw [List.dropLast_concat, hfirstOperands]
  · intro hmixed
    obtain ⟨rfl, _, hpackedCode⟩ := hpassed.packed hmixed
    obtain rfl := hk₄ hmixed
    rw [hcode, hpackedCode]
    exact filter_varargsCode (below_append.mpr ⟨hcodeBelow, below_codes hfirstBelow⟩) hfurtherBelow
      hpassed.operands hperforms

/-- A method that takes one integer and then any number of them. -/
def sumMethod : Signature :=
  { name := "sum", returnTy := .int, params := [⟨"a", .int, false⟩, ⟨"rest", .array .int, true⟩]
    locals := [], isStatic := false }

/-- The scope of a method in the class with that method. -/
def sumScope : Scope :=
  { symbols := { className := "A", superclass := none, imports := [], fields := []
                 methods := [sumMethod] }
    method := some { name := "f", returnTy := .int } }

/-- Two arguments are left over, and one of them is a call that packs none. -/
def sumArgs : List Expr :=
  [.literal (.int 1), .call .self "sum" [.literal (.int 2)], .literal (.int 3)]

theorem varargs_call_lowered_nested :
    let array : Operand := .temp 2 (.array .int)
    ∃ l, Gives (lowerExpr sumScope none (.call .self "sum" sumArgs)) {} l ⟨4, 0⟩ ∧
      Gives (lowerTarget sumScope .self (lowerExpr sumScope none .self)) {} ([], .receiver "A") {} ∧
      l.code.filter (writesTemp 2) =
        [.assignVar array (.call (.newArray .int (.int 2))),
          elementStore array .int 0 (.temp 1 .int), elementStore array .int 1 (.int 3)] := by
  intro array
  have hlowered : Gives (lowerExpr sumScope none (.call .self "sum" sumArgs)) {} _ ⟨4, 0⟩ := rfl
  have htarget : Gives (lowerTarget sumScope .self (lowerExpr sumScope none .self)) {}
    ([], .receiver "A") {} := rfl
  have hparams : sumMethod.params = [⟨"a", .int, false⟩] ++ [⟨"rest", .array .int, true⟩] := rfl
  obtain ⟨first, k₂, further, k₃, values, code, operand, call, i, hfirst, hfurther, _, hpassed, _,
    _, _, _, _, _, _, _, hstores⟩ := varargs_call_lowered rfl hparams rfl rfl (by decide) htarget rfl
      (.inl hlowered)
  obtain ⟨rfl, rfl⟩ := hfirst.unique (show Gives _ _ [.value (.int 1)] {} from rfl)
  obtain ⟨rfl, rfl⟩ := hfurther.unique (show Gives _ _ [_, .value (.int 3)] ⟨2, 0⟩ from rfl)
  obtain rfl : [.temp 1 .int, .int 3] = values :=
    (List.map_inj_right fun _ _ => Option.some.inj).mp hpassed.operands
  obtain ⟨rfl, _⟩ := hpassed.packed (by decide)
  exact ⟨_, hlowered, htarget, hstores (by decide)⟩

end MiniJava.Lowering
