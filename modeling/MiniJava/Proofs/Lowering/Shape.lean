import MiniJava.Proofs.Lowering.Nodes

/-!
# Lowered code has its shape

The lemmas about single expressions put together over arrays, calls and the whole tree, then over
statements.
-/

namespace MiniJava.Semantics

open Ir (Operand Instr)
open Lowering

variable {c : Context} {d : Method} {Φ : Instr → Prop}

/-! ## Arrays -/

/-- Lowering gives code for items of an array that is in a temporary. -/
def CodesItems (c : Context) (d : Method) (Φ : Instr → Prop) (hint : Option Ty) (es : List Expr) :
    Prop :=
  ∀ ⦃k items k'⦄, Gives (lowerItems (scopeOf c d) hint es) k items k' →
    ∀ ⦃element id index code⦄, storeItems (.temp id (.array element)) element index items = .ok code →
      (∀ n e value, e ∈ es → typeOf c hint e = some value.ty →
        Φ (.assign (.element (.temp id (.array element)) (.int n) element) (.operand value))) →
      Code c Φ [.temp id (.array element)] k code [] k'

theorem lowerItems_fit (hc : c.method = .ofMethod d) {hint : Option Ty} {es : List Expr}
    {k k' : Counters} {items : List Lowered}
    (h : Gives (lowerItems (scopeOf c d) hint es) k items k') :
    items.length = es.length ∧ literalElementTy hint items = itemTy c hint es :=
  have hitems := lowerItems_lowers (m := { name := "", isStatic := true, returnTy := .void }) hc
    (fun i l h => by cases h) hint es h
  ⟨hitems.length, hitems.ty⟩

theorem codesItems_nil (hint : Option Ty) : CodesItems c d Φ hint [] := by
  intro k items k' h element id index code hcode _
  obtain ⟨rfl, rfl⟩ := Gives.pure_iff.mp h
  cases hcode
  exact .nil

theorem codesItems_cons {hint : Option Ty} {e : Expr} {rest : List Expr}
    (he : Codes c Φ (lowerExpr (scopeOf c d) hint e))
    (te : Types (lowerExpr (scopeOf c d) hint e) (typeOf c hint e))
    (hrest : CodesItems c d Φ hint rest) : CodesItems c d Φ hint (e :: rest) := by
  intro k items k' h element id index code hcode hΦ
  rw [lowerItems] at h
  obtain ⟨item, k₁, gitem, h⟩ := h.bind
  obtain ⟨more, k₂, gmore, h⟩ := h.bind
  obtain ⟨rfl, rfl⟩ := Gives.pure_iff.mp h
  rw [storeItems] at hcode
  obtain ⟨value, hvalue, hcode⟩ := except_bind hcode
  obtain ⟨stores, hstores, hcode⟩ := except_bind hcode
  cases hcode
  replace hvalue := require_eq_ok hvalue
  have hmore := hrest gmore hstores fun n e' value he' => hΦ n e' value (List.mem_cons_of_mem _ he')
  have hitem : Code c Φ [.temp id (.array element)] k item.code [value] k₁ :=
    (he.operand gitem hvalue).outer_mono (List.nil_subset _)
  have hstore := hitem.effect (i := .assign (.element (.temp id (.array element))
    (.int (.ofNat index)) element) (.operand value)) ⟨rfl, rfl, rfl⟩ ?_
    (hΦ _ e value List.mem_cons_self (te.operand gitem hvalue))
  · have hboth := (hstore.weaken (List.nil_subset _)).append hmore
    rwa [List.append_assoc] at hboth
  · intro o ho
    simp only [Instr.usedOperands, Ir.Value.operands, List.mem_append, List.mem_cons,
      List.not_mem_nil, or_false] at ho
    rcases ho with rfl | rfl | rfl
    · exact .inl List.mem_cons_self
    · exact .inr (.inl List.mem_cons_self)
    · exact .inr (.inr trivial)

theorem packArray_code {element : Ty} {items : List Lowered} {k k₁ k' : Counters} {l : Lowered}
    (hitems : ∀ id code, storeItems (.temp id (.array element)) element 0 items = .ok code →
      Code c Φ [.temp id (.array element)] k code [] k₁)
    (hΦ : ∀ id n, Φ (.assignVar (.temp id (.array element)) (.call (.newArray element (.int n)))))
    (h : Gives (packArray element items) k₁ l k') :
    Code c Φ [] k l.code l.operand.toList k' := by
  obtain ⟨_, rfl, hoperand, stores, hstores, hcode⟩ := packArray_gives h
  rw [hoperand, hcode]
  refine .array (fun o ho => ?_) (hitems _ _ hstores) (hΦ _ _)
  simp only [Ir.Value.operands, Ir.Call.operands, Ir.Call.newArray, List.mem_cons,
    List.not_mem_nil, or_false] at ho
  rcases ho with rfl | rfl
  · trivial
  · trivial

theorem lowerArrayLiteral_codes (hc : c.method = .ofMethod d) {hint : Option Ty} {es : List Expr}
    (h : CodesItems c d Φ (hint.bind (·.element?)) es)
    (hΦ : ∀ i, NodeInstr c hint (.arrayLiteral es) i → Φ i) :
    Codes c Φ (lowerExpr (scopeOf c d) hint (.arrayLiteral es)) := by
  intro k l k' hg
  rw [lowerExpr] at hg
  obtain ⟨items, k₁, gitems, hg⟩ := hg.bind
  have hty := (lowerItems_fit hc gitems).2
  refine packArray_code (fun id code hcode => h gitems hcode fun n e value he hvalue => ?_)
    (fun id n => hΦ _ (.literalArray hty)) hg
  exact hΦ _ (.item hty he hvalue)

/-! ## Calls -/

/-- Lowering gives code for the arguments of a call, and operands of their types. -/
def CodesArgs (c : Context) (d : Method) (Φ : Instr → Prop) (formals : Formals) (es : List Expr) :
    Prop :=
  ∀ ⦃k args k₁ code operands k₂⦄, Gives (lowerArgs (scopeOf c d) formals es) k args k₁ →
    Gives (args.close formals) k₁ (code, operands) k₂ →
      Code c Φ [] k code operands k₂ ∧
        operands.map (fun o => some o.ty) = argTys c (parametersOf formals) es

theorem PackInstr.cons {parameters : Parameters} {e : Expr} {rest : List Expr} {i : Instr}
    (h : parameters.packing? = none) (hi : PackInstr c parameters.next rest i) :
    PackInstr c parameters (e :: rest) i := by
  obtain ⟨fixed, array⟩ := parameters
  cases fixed with
  | nil =>
    rw [show array = none from h] at hi ⊢
    cases hi with
    | allocate h => cases h
    | item h => cases h.rest
  | cons ty tys =>
    cases hi with
    | allocate h => exact .allocate h
    | item h hvalue => exact .item ⟨h.rest, h.mem, h.notAlone⟩ hvalue

theorem packArguments_gives {array element : Ty} {items : List Lowered} {k k' : Counters}
    {l : Lowered} (h : Gives (packArguments array element items) k l k') :
    (items = [l] ∧ l.operand.map (·.ty) = some array ∧ k = k') ∨
      (∀ item, items = [item] → item.operand.map (·.ty) ≠ some array) ∧
        Gives (packArray element items) k l k' := by
  cases items with
  | nil => exact .inr ⟨by rintro item ⟨⟩, h⟩
  | cons single rest =>
    cases rest with
    | nil =>
      rw [packArguments] at h
      by_cases hty : single.operand.map (·.ty) = some array
      · rw [if_pos hty] at h
        obtain ⟨rfl, rfl⟩ := Gives.pure_iff.mp h
        exact .inl ⟨rfl, hty, rfl⟩
      · rw [if_neg hty] at h
        refine .inr ⟨fun item hitem => ?_, h⟩
        cases hitem
        exact hty
    | cons => exact .inr ⟨by rintro item ⟨⟩, h⟩

theorem packed_code {array : Ty} {items : List Lowered} {k k₁ k' : Counters} {l : Lowered}
    {o : Operand}
    (hitems : ∀ id code, storeItems (.temp id (.array (packedTy array))) (packedTy array) 0 items =
      .ok code → Code c Φ [.temp id (.array (packedTy array))] k code [] k₁)
    (hΦ : ∀ id n, Φ (.assignVar (.temp id (.array (packedTy array)))
      (.call (.newArray (packedTy array) (.int n)))))
    (h : Gives (packArray (packedTy array) items) k₁ l k') (ho : l.operand = some o) :
    Code c Φ [] k l.code [o] k' ∧ o.ty = .array (packedTy array) := by
  have hcode := packArray_code hitems hΦ h
  obtain ⟨_, _, hoperand, _⟩ := packArray_gives h
  rw [ho] at hcode hoperand
  cases hoperand
  exact ⟨hcode, rfl⟩

theorem codesArgs_nil {formals : Formals}
    (hΦ : ∀ i, PackInstr c (parametersOf formals) [] i → Φ i) : CodesArgs c d Φ formals [] := by
  intro k args k₁ code operands k₂ h hclose
  obtain ⟨rfl, rfl⟩ := Gives.pure_iff.mp h
  cases formals with
  | plain tys =>
    obtain ⟨hpair, rfl⟩ := Gives.pure_iff.mp hclose
    cases hpair
    exact ⟨.nil, rfl⟩
  | varargs tys array =>
    obtain ⟨l, o, gpack, ho, rfl, rfl⟩ := close_varargs hclose
    obtain ⟨hsingle, _⟩ | ⟨_, gpack⟩ := packArguments_gives gpack
    · cases hsingle
    have hnil : ∀ id code, storeItems (.temp id (.array (packedTy array))) (packedTy array) 0 [] =
        .ok code → Code c Φ [.temp id (.array (packedTy array))] k code [] k := by
      intro id code hcode
      cases hcode
      exact .nil
    obtain ⟨hcode, hty⟩ := packed_code hnil (fun id n => hΦ _ (.allocate rfl)) gpack ho
    refine ⟨hcode, ?_⟩
    show [some o.ty] = _
    rw [hty]
    rfl

theorem codesArgs_cons (hc : c.method = .ofMethod d) {formals : Formals} {e : Expr} {rest : List Expr}
    (he : ∀ hint, Types (lowerExpr (scopeOf c d) hint e) (typeOf c hint e))
    (hone : formals.isPacked = false →
      Codes c Φ (lowerExpr (scopeOf c d) (parametersOf formals).fixed.head? e) ∧
        CodesArgs c d Φ formals.next rest)
    (hpacked : ∀ array, formals = .varargs [] array →
      Codes c Φ (lowerExpr (scopeOf c d) (some (packedTy array)) e) ∧
        CodesItems c d Φ (some (packedTy array)) rest)
    (hΦ : ∀ i, PackInstr c (parametersOf formals) (e :: rest) i → Φ i) :
    CodesArgs c d Φ formals (e :: rest) := by
  intro k args k₁ code operands k₂ h hclose
  cases hkind : formals.isPacked with
  | false =>
    obtain ⟨hpacking, hhint⟩ := packing_of_not_packed hkind
    obtain ⟨hecode, hrest⟩ := hone hkind
    rw [lowerArgs, Arguments.cons] at h
    obtain ⟨l, k₃, ge, h⟩ := h.bind
    rw [hkind] at h
    obtain ⟨o, ho, h⟩ := Gives.lift_bind h
    obtain ⟨more, k₄, gmore, h⟩ := h.bind
    obtain ⟨rfl, rfl⟩ := Gives.pure_iff.mp h
    obtain ⟨code', operands', gclose, rfl, rfl⟩ := close_cons hclose
    rw [hhint] at ge
    replace ho := require_eq_ok ho
    obtain ⟨hmore, htys⟩ := hrest gmore gclose
    refine ⟨(hecode.operand ge ho).append hmore, ?_⟩
    rw [argTys, hpacking, List.map_cons, htys, parametersOf_next, (he _).operand ge ho]
  | true =>
    obtain ⟨array, rfl⟩ := varargs_of_packed hkind
    obtain ⟨hecode, hitems⟩ := hpacked array rfl
    obtain ⟨items, gitems, rfl⟩ := lowerArgs_packed h
    obtain ⟨l, o, gpack, ho, rfl, rfl⟩ := close_varargs hclose
    have gall := gitems
    rw [lowerItems] at gitems
    obtain ⟨item, k₃, gitem, gitems⟩ := gitems.bind
    obtain ⟨more, k₄, gmore, gitems⟩ := gitems.bind
    obtain ⟨rfl, rfl⟩ := Gives.pure_iff.mp gitems
    have hlength := (lowerItems_fit hc gmore).1.symm
    show Code c Φ [] k ([] ++ l.code) ([] ++ [o]) k₂ ∧ [some o.ty] = _
    rw [argTys_packed rfl]
    rcases packArguments_gives gpack with ⟨hsingle, hty, rfl⟩ | ⟨hsingle, gpack⟩
    · cases hsingle
      obtain rfl := List.eq_nil_of_length_eq_zero hlength
      obtain ⟨_, rfl⟩ := Gives.pure_iff.mp gmore
      have hetype := he (some (packedTy array)) gitem
      rw [hty] at hetype
      refine ⟨hecode.operand gitem ho, ?_⟩
      rw [if_pos ⟨rfl, hetype.symm⟩, ← hty, ho]
      rfl
    · have halone : ¬ (rest.isEmpty ∧ typeOf c (some (packedTy array)) e = some array) := by
        rintro ⟨hempty, hetype⟩
        obtain rfl := List.isEmpty_iff.mp hempty
        obtain rfl := List.eq_nil_of_length_eq_zero hlength.symm
        exact hsingle item rfl ((he _ gitem).trans hetype)
      have hitem : ∀ e' ∈ e :: rest, IsPacked c { rest := some array } (e :: rest) array e' := by
        refine fun e' he' => ⟨rfl, he', ?_⟩
        rintro ⟨hone', hetype⟩
        cases (show e :: rest = [e'] from hone')
        exact halone ⟨rfl, hetype⟩
      obtain ⟨hcode, hty⟩ := packed_code (fun id code hcode =>
          codesItems_cons hecode (he _) hitems gall hcode fun n e' value he' hvalue =>
            hΦ _ (.item (hitem e' he') hvalue))
        (fun id n => hΦ _ (.allocate rfl)) gpack ho
      refine ⟨hcode, ?_⟩
      rw [if_neg halone, hty]

theorem lowerCall_code (hc : c.method = .ofMethod d) {target : Expr} {method : String}
    {args : List Expr} {expected : Option Ty} {discard : Bool} {k k' : Counters} {l : Lowered}
    (htarget : c.classTarget? target = none → Codes c Φ (lowerExpr (scopeOf c d) none target))
    (hargs : ∀ formals, parametersOf formals =
      .ofSignature? (c.signature? target (typeOf c none target) method) →
        CodesArgs c d Φ formals args)
    (h : Gives (lowerCall (scopeOf c d)
      (lowerTarget (scopeOf c d) target (lowerExpr (scopeOf c d) none target)) method
      (fun formals => lowerArgs (scopeOf c d) formals args) expected discard) k l k') :
    ∃ code call k₁ os, Code c Φ [] k code os k₁ ∧ (∀ o ∈ call.operands, o ∈ os ∨ Free c o) ∧
      IsCall c expected discard target method args call ∧
      Gives (if discard || call.returnTy.isVoid then
          pure { code := code ++ [.call call], operand := none }
        else compute code call.returnTy (.call call)) k₁ l k' := by
  obtain ⟨targetCode, o, k₁, arguments, k₂, argCode, operands, k₃, call, gtarget, gargs, gclose, rfl,
    h⟩ := lowerCall_parts h
  have htargeted := lowerTarget_lowered hc gtarget
  have hlowers : LowersExpr c d { name := "", isStatic := true, returnTy := .void } none target :=
    lowerExpr_lowers hc (fun i l h => by cases h) none target
  rw [ownSignature_eq htargeted hlowers] at gargs gclose h
  obtain ⟨hcode, htys⟩ := hargs _ (parametersOf_ofSignature _) gargs gclose
  rw [parametersOf_ofSignature] at htys
  obtain ⟨os, htargetCode, hread, hon⟩ : ∃ os, Code c Φ [] k targetCode os k₁ ∧
      (o ∈ os ∨ Free c o) ∧ IsTarget c target o := by
    cases htargeted with
    | ofClass hclass => exact ⟨[], .nil, .inr trivial, .ofClass hclass⟩
    | ofOperand hclass hl ho =>
      refine ⟨[o], (htarget hclass).operand hl ho, .inl List.mem_cons_self, .ofOperand hclass
        ((lowerExpr_types hc none target).operand hl ho) ?_⟩
      rintro name rfl
      exact (lowerExpr_fits hc none target hl).proper _ ho
  refine ⟨targetCode ++ argCode, ⟨targetKind o, o, some method, operands, callReturnTy
    (c.signature? target (typeOf c none target) method) expected discard⟩, k₃, os ++ operands,
    htargetCode.append hcode, fun o' ho' => ?_, ⟨hon, rfl, rfl, htys, rfl⟩, h⟩
  rcases List.mem_cons.mp ho' with rfl | ho'
  · exact hread.imp (List.mem_append_left _) id
  · exact .inl (List.mem_append_right _ ho')

theorem lowerCall_codes (hc : c.method = .ofMethod d) {target : Expr} {method : String}
    {args : List Expr} {hint : Option Ty}
    (htarget : c.classTarget? target = none → Codes c Φ (lowerExpr (scopeOf c d) none target))
    (hargs : ∀ formals, parametersOf formals =
      .ofSignature? (c.signature? target (typeOf c none target) method) →
        CodesArgs c d Φ formals args)
    (hΦ : ∀ i, NodeInstr c hint (.call target method args) i → Φ i) :
    Codes c Φ (lowerExpr (scopeOf c d) hint (.call target method args)) := by
  intro k l k' h
  rw [lowerExpr] at h
  obtain ⟨code, call, k₁, os, hcode, hreads, hcall, h⟩ := lowerCall_code hc htarget hargs h
  by_cases hvoid : call.returnTy.isVoid
  · simp only [hvoid, Bool.or_true, if_true] at h
    obtain ⟨rfl, rfl⟩ := Gives.pure_iff.mp h
    refine .weaken (.effect hcode ⟨rfl, rfl, rfl⟩ (fun o ho => ?_) (hΦ _ (.callVoid hcall hvoid)))
      (List.nil_subset _)
    exact (hreads o ho).imp id .inr
  · simp only [Bool.false_or, if_neg hvoid] at h
    exact hcode.computes h hreads fun id => hΦ _ (.call hcall hvoid)

/-! ## The tree -/

mutual

/-- The code of an expression has its shape, and a property that the instructions of all nodes
have that keep to a rule. -/
theorem lowerExpr_codes (hc : c.method = .ofMethod d) {p : Rule}
    (hΦ : ∀ ⦃hint e i⦄, Expr.Keeps c p hint e → NodeInstr c hint e i → Φ i) :
    ∀ (hint : Option Ty) (e : Expr), Expr.Keeps c p hint e →
      Codes c Φ (lowerExpr (scopeOf c d) hint e)
  | hint, .literal value, _, k, l, k', h => by
    rw [lowerExpr] at h
    obtain ⟨rfl, rfl⟩ := Gives.pure_iff.mp h
    exact .free trivial
  | hint, .self, _, k, l, k', h => by
    rw [lowerExpr] at h
    obtain ⟨o, ho, h⟩ := h.lift_bind
    obtain ⟨rfl, rfl⟩ := Gives.pure_iff.mp h
    obtain ⟨hstatic, rfl⟩ := receiver_eq_ok ho
    exact .free ⟨rfl, by rw [hc]; exact hstatic⟩
  | hint, .var name, hkeeps, k, l, k', h => by
    rw [lowerExpr] at h
    exact lowerVar_codes hc (fun id ty hty => hΦ hkeeps (.field hty)) h
  | hint, .paren inner, hkeeps, k, l, k', h => by
    rw [lowerExpr] at h
    rw [Expr.Keeps] at hkeeps
    exact lowerExpr_codes hc hΦ hint inner hkeeps.2 h
  | hint, .binary op left right, hkeeps, k, l, k', h => by
    have hparts := hkeeps
    rw [Expr.Keeps] at hparts
    have hl := lowerExpr_codes hc hΦ _ left hparts.2.1
    have hr := lowerExpr_codes hc hΦ _ right hparts.2.2
    cases op with
    | add | sub | mul | div | lt =>
      rw [lowerExpr] at h
      exact lowerBinary_codes hl hr (lowerExpr_types hc _ left) (lowerExpr_types hc _ right)
        (fun id u v hu hv => hΦ hkeeps (.strict rfl hu hv)) h
    | and =>
      rw [lowerExpr] at h
      refine lowerAnd_codes hl hr (lowerExpr_types hc _ left) (lowerExpr_types hc _ right)
        (fun n => ⟨fun u hu => ?_, ?_, fun u hu => ?_⟩) h
      · exact hΦ hkeeps (.test rfl hu ⟨n, .inl rfl⟩)
      · exact hΦ hkeeps (.decided rfl)
      · exact hΦ hkeeps (.undecided rfl hu)
    | or =>
      rw [lowerExpr] at h
      refine lowerOr_codes hl hr (lowerExpr_types hc _ left) (lowerExpr_types hc _ right)
        (fun n => ⟨fun u hu => ?_, fun u hu => ?_, ?_⟩) h
      · exact hΦ hkeeps (.test rfl hu ⟨n, .inr rfl⟩)
      · exact hΦ hkeeps (.undecided rfl hu)
      · exact hΦ hkeeps (.decided rfl)
  | hint, .not operand, hkeeps, k, l, k', h => by
    have hparts := hkeeps
    rw [Expr.Keeps] at hparts
    rw [lowerExpr] at h
    exact lowerNot_codes (lowerExpr_codes hc hΦ _ operand hparts.2) (lowerExpr_types hc _ operand)
      (fun id u hu => hΦ hkeeps (.not hu)) h
  | hint, .newArray element size, hkeeps, k, l, k', h => by
    have hparts := hkeeps
    rw [Expr.Keeps] at hparts
    rw [lowerExpr] at h
    exact lowerNewArray_codes (lowerExpr_codes hc hΦ _ size hparts.2) (lowerExpr_types hc _ size)
      (fun id u hu => hΦ hkeeps (.newArray hu)) h
  | hint, .arrayLiteral elements, hkeeps, k, l, k', h => by
    have hparts := hkeeps
    rw [Expr.Keeps] at hparts
    exact lowerArrayLiteral_codes hc (lowerItems_codes hc hΦ _ elements hparts.2)
      (fun i hi => hΦ hkeeps hi) h
  | hint, .index array place, hkeeps, k, l, k', h => by
    have hparts := hkeeps
    rw [Expr.Keeps] at hparts
    rw [lowerExpr] at h
    exact lowerIndex_codes (lowerExpr_codes hc hΦ _ array hparts.2.1)
      (lowerExpr_codes hc hΦ _ place hparts.2.2) (lowerExpr_types hc _ array)
      (lowerExpr_types hc _ place)
      (fun id u v element hu helement hv => hΦ hkeeps (.index hu helement hv)) h
  | hint, .length array, hkeeps, k, l, k', h => by
    have hparts := hkeeps
    rw [Expr.Keeps] at hparts
    rw [lowerExpr] at h
    exact lowerLength_codes (lowerExpr_codes hc hΦ _ array hparts.2) (lowerExpr_types hc _ array)
      (fun id u element hu helement => hΦ hkeeps (.length hu helement)) h
  | hint, .newObject name, hkeeps, k, l, k', h => by
    rw [lowerExpr] at h
    exact lowerNewObject_codes (fun id => hΦ hkeeps .newObject) (fun id => hΦ hkeeps .construct) h
  | hint, .call target method args, hkeeps, k, l, k', h => by
    have hparts := hkeeps
    rw [Expr.Keeps] at hparts
    refine lowerCall_codes hc (fun hclass => lowerExpr_codes hc hΦ _ target (hparts.2.1 hclass))
      (fun formals hformals => lowerArgs_codes hc hΦ formals args ?_ fun i hi => ?_)
      (fun i hi => hΦ hkeeps hi) h
    · rw [hformals]
      exact hparts.2.2
    · rw [hformals] at hi
      exact hΦ hkeeps (.packed hi)

theorem lowerItems_codes (hc : c.method = .ofMethod d) {p : Rule}
    (hΦ : ∀ ⦃hint e i⦄, Expr.Keeps c p hint e → NodeInstr c hint e i → Φ i) :
    ∀ (hint : Option Ty) (es : List Expr), Expr.ItemsKeep c p hint es →
      CodesItems c d Φ hint es
  | hint, [], _ => codesItems_nil hint
  | hint, e :: rest, hkeeps => by
    rw [Expr.ItemsKeep] at hkeeps
    exact codesItems_cons (lowerExpr_codes hc hΦ hint e hkeeps.1) (lowerExpr_types hc hint e)
      (lowerItems_codes hc hΦ hint rest hkeeps.2)

theorem lowerArgs_codes (hc : c.method = .ofMethod d) {p : Rule}
    (hΦ : ∀ ⦃hint e i⦄, Expr.Keeps c p hint e → NodeInstr c hint e i → Φ i) :
    ∀ (formals : Formals) (es : List Expr), Expr.ArgsKeep c p (parametersOf formals) es →
      (∀ i, PackInstr c (parametersOf formals) es i → Φ i) → CodesArgs c d Φ formals es
  | formals, [], _, hpack => codesArgs_nil hpack
  | formals, e :: rest, hkeeps, hpack => by
    rw [Expr.ArgsKeep] at hkeeps
    refine codesArgs_cons hc (fun hint => lowerExpr_types hc hint e) (fun hone => ?_)
      (fun array hformals => ?_) hpack
    · have hpacking := (packing_of_not_packed hone).1
      rw [hpacking] at hkeeps
      refine ⟨lowerExpr_codes hc hΦ _ e hkeeps.1, lowerArgs_codes hc hΦ formals.next rest ?_ ?_⟩
      · rw [parametersOf_next]
        exact hkeeps.2
      · intro i hi
        rw [parametersOf_next] at hi
        exact hpack i (hi.cons hpacking)
    · subst hformals
      exact ⟨lowerExpr_codes hc hΦ _ e hkeeps.1, lowerItems_codes hc hΦ _ rest hkeeps.2⟩

end

end MiniJava.Semantics
