import MiniJava.Proofs.Emission.Arity
import MiniJava.Proofs.Emission.Kinds
import MiniJava.Proofs.Semantics.Typing

/-!
# Operands of the right kinds

Where the types of a method are right, the instructions that it is lowered to have operands of the
kinds that they work on. What a call takes goes by the method that the class declares, or by its
operands, so both have to agree on the kinds.
-/

namespace MiniJava.Semantics

open Ir (Operand Instr)
open Jvm (Kind CallKinded ValueKinded WellKinded Resolver Invocation returnKind descriptor_kinds
  kinds_of_value)
open Lowering

variable {c : Context} {f : Jvm.Frame}

/-! ## Kinds of types -/

theorem kind_of_reference {ty : Ty} (h : ty.isReference) : Kind.ofTy ty = .reference :=
  if_pos h

theorem kind_of_fills {ty declared : Ty} (h : ty.fills declared) :
    Kind.ofTy ty = .ofTy declared := by
  by_cases heq : ty = declared
  · rw [heq]
  · obtain ⟨hty, hdeclared⟩ := Ty.isReference_of_fills h heq
    rw [kind_of_reference hty, kind_of_reference hdeclared]

theorem descriptor_kinds_of_value (r : Resolver) {ty : Ty} (h : ¬ ty.isVoid) :
    (r.descriptor ty).kinds = [.ofTy ty] := by
  rw [descriptor_kinds, kinds_of_value h]

theorem not_isVoid_of_ne {ty : Ty} (h : ty ≠ .void) : ¬ ty.isVoid := by
  cases ty with
  | void => exact absurd rfl h
  | _ => exact Bool.false_ne_true

theorem kinds_of_operands (r : Resolver) {args : List Operand} {tys : List Ty}
    (h : List.Forall₂ (fun (o : Operand) ty => ¬ ty.isVoid ∧ Kind.ofTy o.ty = .ofTy ty) args tys) :
    (tys.map r.descriptor).flatMap (·.kinds) = args.map fun o => Kind.ofTy o.ty := by
  induction h with
  | nil => rfl
  | cons hty _ ih =>
    rw [List.map_cons, List.flatMap_cons, ih, descriptor_kinds_of_value r hty.1, List.map_cons, hty.2]
    rfl

/-! ## Arguments -/

/-- An argument is passed in an operand whose type may be put where a parameter is declared. -/
def ArgFills (found : Option Ty) (declared : Ty) : Prop :=
  ∃ ty, found = some ty ∧ ty.fills declared

theorem argTys_fill : ∀ (args : List Expr) {parameters : Parameters},
    (∀ array, parameters.rest = some array →
      ∃ element, array = .array element ∧ element.fills element) →
    ArgsFill c parameters args →
      List.Forall₂ ArgFills (argTys c parameters args) (parameters.fixed ++ parameters.rest.toList)
  | [], ⟨fixed, none⟩, _, h => by
    obtain rfl : fixed = [] := h
    exact .nil
  | [], ⟨fixed, some array⟩, hrest, h => by
    obtain rfl : fixed = [] := h
    obtain ⟨element, rfl, helement⟩ := hrest array rfl
    exact .cons ⟨.array element, rfl, helement⟩ .nil
  | e :: rest, ⟨[], none⟩, _, h => h.elim
  | e :: rest, ⟨[], some array⟩, hrest, h => by
    obtain ⟨element, rfl, helement⟩ := hrest array rfl
    rw [argTys_packed rfl]
    split
    · exact .cons ⟨.array element, rfl, helement⟩ .nil
    · exact .cons ⟨.array element, rfl, helement⟩ .nil
  | e :: rest, ⟨ty :: tys, array⟩, hrest, h =>
    .cons h.1 (argTys_fill rest hrest h.2)

theorem argTys_ne_void : ∀ (args : List Expr) {parameters : Parameters},
    Expr.ArgsKeep c (Typed c) parameters args → ∀ ty ∈ argTys c parameters args, ty ≠ some .void
  | [], ⟨_, none⟩, _ => List.forall_mem_nil _
  | [], ⟨_, some array⟩, _ => List.forall_mem_singleton.mpr (by simp)
  | e :: rest, ⟨[], some array⟩, h => by
    rw [argTys_packed rfl]
    split
    · rename_i halone
      rw [← halone.2]
      exact List.forall_mem_singleton.mpr (typeOf_ne_void h.1)
    · exact List.forall_mem_singleton.mpr (by simp)
  | e :: rest, ⟨[], none⟩, h =>
    List.forall_mem_cons.mpr ⟨typeOf_ne_void h.1, argTys_ne_void rest h.2⟩
  | e :: rest, ⟨ty :: tys, array⟩, h =>
    List.forall_mem_cons.mpr ⟨typeOf_ne_void h.1, argTys_ne_void rest h.2⟩

theorem ofSignature_tys (s : Signature) :
    (Parameters.ofSignature? (some s)).fixed ++ (Parameters.ofSignature? (some s)).rest.toList =
      s.params.map (·.ty) := by
  rw [Parameters.ofSignature?]
  by_cases hvarargs : s.isVarargs
  · rw [if_pos hvarargs]
    have hsome : s.params.map (·.ty) ≠ [] := by
      intro hnil
      rw [Signature.isVarargs, List.map_eq_nil_iff.mp hnil] at hvarargs
      cases hvarargs
    rw [List.getLastD_eq_getLast?, List.getLast?_eq_some_getLast hsome]
    exact List.dropLast_append_getLast hsome
  · rw [if_neg hvarargs]
    exact List.append_nil _

theorem ofSignature_rest {s : Signature} {array : Ty}
    (h : (Parameters.ofSignature? (some s)).rest = some array) :
    ∃ param ∈ s.params, param.isVarargs ∧ param.ty = array := by
  rw [Parameters.ofSignature?] at h
  by_cases hvarargs : s.isVarargs
  · rw [if_pos hvarargs] at h
    obtain ⟨param, hparam, hany⟩ := (Option.any_eq_true _ _).mp hvarargs
    refine ⟨param, List.mem_of_getLast? hparam, hany, ?_⟩
    rw [← Option.some.inj h, List.getLastD_eq_getLast?, List.getLast?_map, hparam]
    rfl
  · rw [if_neg hvarargs] at h
    cases h

/-! ## Calls -/

/-- Every parameter that takes any number of arguments is an array. -/
def PacksArrays (symbols : SymbolTable) : Prop :=
  ∀ s ∈ symbols.methods, ∀ param ∈ s.params, param.isVarargs →
    ∃ element, param.ty = .array element ∧ element.fills element

theorem PacksArrays.rest {symbols : SymbolTable} (h : PacksArrays symbols) {name : String}
    {s : Signature} (hs : symbols.method? name = some s) (array : Ty)
    (harray : (Parameters.ofSignature? (some s)).rest = some array) :
    ∃ element, array = .array element ∧ element.fills element := by
  obtain ⟨param, hparam, hvarargs, rfl⟩ := ofSignature_rest harray
  exact h s (List.mem_of_find?_eq_some hs) param hparam hvarargs

section Calls

variable {hint : Option Ty} {discard : Bool} {target : Expr} {method : String} {args : List Expr}
  {call : Ir.Call}

/-- The operands of a call to a method that the class declares may be put where its parameters are
declared. -/
theorem IsCall.operands_fill (hd : Declares c.symbols f.owner) (hpacks : PacksArrays c.symbols)
    {place : Option Ty} (hrule : Typed c place (.call target method args))
    (h : IsCall c hint discard target method args call) {m : Ir.Method}
    (hm : ownMethod? f.owner call = some m) :
    List.Forall₂ (fun (o : Operand) ty => o.ty.fills ty) call.args (m.params.map (·.ty)) ∧
      call.returnTy = m.returnTy := by
  obtain ⟨hon, name, hname, hm⟩ := ownMethod?_eq_some.mp hm
  obtain ⟨s, hs, hreturn, hparams⟩ := hd.method hm
  rw [h.name] at hname
  cases hname
  rw [hd.name] at hon
  have hsignature := (h.on.signature hon method).trans hs
  have hfill := argTys_fill args (hpacks.rest hs) (hrule.2 s hsignature)
  rw [ofSignature_tys, ← hsignature, ← h.args, List.forall₂_map_left_iff] at hfill
  rw [hparams]
  refine ⟨hfill.imp fun o ty => ?_, ?_⟩
  · rintro ⟨found, heq, hfills⟩
    cases heq
    exact hfills
  · rw [h.returnTy, hsignature, hreturn]
    rfl

theorem typed_passes (hd : Declares c.symbols f.owner) (hpacks : PacksArrays c.symbols) :
    PassesUnder c f.owner (Typed c) := by
  intro place hint discard target method args call hrule h m hm
  have hlength := (h.operands_fill hd hpacks hrule hm).1.length_eq
  rwa [List.length_map] at hlength

theorem callKinded_of_own (hd : Declares c.symbols f.owner) (hplain : PlainName c.symbols.className)
    (htarget : KnownTy c.symbols call.target.ty) (hargs : ∀ o ∈ call.args, ¬ o.ty.isVoid)
    (hown : ∀ m, ownMethod? f.owner call = some m →
      List.Forall₂ (fun (o : Operand) ty => o.ty.fills ty) call.args (m.params.map (·.ty)) ∧
        call.returnTy = m.returnTy)
    (hnew : call.kind ≠ .new) (hlength : call.kind ≠ .arrayLength) : CallKinded f call where
  size hkind := absurd hkind hnew
  measured hkind := absurd hkind hlength
  invoke invocation cls name hkind hname howner := by
    rw [Jvm.callDescriptor]
    split
    · rename_i m hdeclared
      split at hdeclared
      · rename_i hcls
        subst hcls
        obtain ⟨hfill, hreturn⟩ := hown m (ownMethod?_eq_some.mpr
          ⟨callOwner_own hd hplain htarget howner, name, hname, hdeclared⟩)
        rw [Resolver.methodDescriptor, hreturn]
        exact ⟨kinds_of_operands _ (hfill.imp fun o ty hty =>
          ⟨(Ty.not_void_of_fills hty).2, kind_of_fills hty⟩), descriptor_kinds _ _⟩
      · cases hdeclared
    · rw [Resolver.methodDescriptor]
      refine ⟨kinds_of_operands _ ?_, descriptor_kinds _ _⟩
      exact List.forall₂_map_right_iff.mpr (List.forall₂_same.mpr fun o ho => ⟨hargs o ho, rfl⟩)

theorem IsCall.kinded (hd : Declares c.symbols f.owner) (hall : KnownTable c.symbols)
    (hmethod : KnownSignature c.symbols c.method) (hpacks : PacksArrays c.symbols)
    {place : Option Ty} (hkeeps : Expr.Keeps c (Typed c) place (.call target method args))
    (h : IsCall c hint discard target method args call) : CallKinded f call := by
  have hnode := hkeeps.self
  rw [Expr.Keeps] at hkeeps
  refine callKinded_of_own hd hall.className
    (h.on.known hall hmethod (fun _ _ h => h.1) hnode.1.2 hkeeps.2.1) (fun o ho => ?_)
    (fun m hm => h.operands_fill hd hpacks hnode hm) ?_ ?_
  · refine not_isVoid_of_ne fun hvoid => ?_
    refine argTys_ne_void args hkeeps.2.2 (some o.ty) ?_ (congrArg some hvoid)
    rw [← h.args]
    exact List.mem_map_of_mem ho
  · rw [h.kind]
    cases call.target <;> simp [targetKind]
  · rw [h.kind]
    cases call.target <;> simp [targetKind]

theorem constructor_kinded (hd : Declares c.symbols f.owner) (hall : KnownTable c.symbols)
    {object : Operand} (htarget : KnownTy c.symbols object.ty) :
    CallKinded f (.constructor object) := by
  refine callKinded_of_own hd hall.className htarget (List.forall_mem_nil _) (fun m hown => ?_)
    (by simp [Ir.Call.constructor]) (by simp [Ir.Call.constructor])
  obtain ⟨_, name, hname, hm⟩ := ownMethod?_eq_some.mp hown
  cases hname
  exact absurd hm (no_constructor hd hall)

theorem callKinded_of_kind (hkind : ∀ invocation : Invocation, call.kind ≠ invocation.callKind)
    (hsize : call.kind = .new → ∀ o, call.args.head? = some o → Kind.ofTy o.ty = .word)
    (hmeasured : call.kind = .arrayLength → Kind.ofTy call.target.ty = .reference ∧
      (returnKind call.returnTy).toList = [.word]) : CallKinded f call :=
  ⟨hsize, hmeasured, fun invocation _ _ h => absurd h (hkind invocation)⟩

theorem newArray_kinded (element : Ty) {size : Operand} (hsize : size.ty = .int) :
    CallKinded f (.newArray element size) := by
  refine callKinded_of_kind (fun invocation => ?_) (fun _ o ho => ?_) (by simp [Ir.Call.newArray])
  · cases invocation <;> simp [Ir.Call.newArray, Invocation.callKind]
  · cases ho
    rw [hsize]
    rfl

theorem newObject_kinded (name : String) : CallKinded f (.newObject name) := by
  refine callKinded_of_kind (fun invocation => ?_) (by simp [Ir.Call.newObject])
    (by simp [Ir.Call.newObject])
  cases invocation <;> simp [Ir.Call.newObject, Invocation.callKind]

theorem arrayLength_kinded {array : Operand} {element : Ty} (harray : array.ty = .array element) :
    CallKinded f (.arrayLength array) := by
  refine callKinded_of_kind (fun invocation => ?_) (by simp [Ir.Call.arrayLength]) fun _ => ⟨?_, rfl⟩
  · cases invocation <;> simp [Ir.Call.arrayLength, Invocation.callKind]
  · show Kind.ofTy array.ty = .reference
    rw [harray]
    rfl

end Calls

/-! ## Instructions -/

/-- The fields that a class of the intermediate code declares are of the types that a symbol table
has. -/
def DeclaresFields (symbols : SymbolTable) (owner : Ir.Class) : Prop :=
  ∀ ⦃name field⦄, owner.field? name = some field →
    ∃ var, symbols.field? name = some var ∧ field.ty = var.ty

section Instructions

variable {hint : Option Ty} {e : Expr} {i : Instr}

theorem kind_of_typeOf {o : Operand} {ty : Ty} (ho : typeOf c hint e = some o.ty)
    (hty : typeOf c hint e = some ty) : Kind.ofTy o.ty = .ofTy ty := by
  rw [ho] at hty
  rw [Option.some.inj hty]

theorem kind_of_array {o : Operand} {element : Ty} (h : o.ty = .array element) :
    Kind.ofTy o.ty = .reference := by
  rw [h]
  rfl

theorem element_kinded {array index value : Operand} {element : Ty}
    (harray : Kind.ofTy array.ty = .reference) (hindex : Kind.ofTy index.ty = .word)
    (hvalue : value.ty.fills element) :
    WellKinded f (.assign (.element array index element) (.operand value)) :=
  ⟨(Ty.not_void_of_fills hvalue).2, harray, hindex, kind_of_fills hvalue⟩

theorem fills_of_operand {o : Operand} {declared : Ty} (h : Fills c hint e declared)
    (ho : typeOf c hint e = some o.ty) : o.ty.fills declared := by
  obtain ⟨ty, hty, hfills⟩ := h
  rw [ho] at hty
  rwa [Option.some.inj hty]

/-- What is packed fills the array that it is packed into, or it would have been passed in its place. -/
theorem ArgsFill.packed : ∀ (args : List Expr) (parameters : Parameters) {array : Ty},
    parameters.rest = some array → ArgsFill c parameters args →
      args.drop parameters.fixed.length = [] ∨ PackFills c array (args.drop parameters.fixed.length)
  | [], _, _, _, _ => .inl List.drop_nil
  | _ :: _, ⟨[], some _⟩, _, rfl, h => .inr h
  | _ :: _, ⟨[], none⟩, _, _, h => h.elim
  | _ :: rest, ⟨_ :: tys, array⟩, _, hrest, h => packed rest ⟨tys, array⟩ hrest h.2

theorem PackInstr.wellKinded {parameters : Parameters} {args : List Expr}
    (hrest : ∀ array, parameters.rest = some array →
      ∃ element, array = .array element ∧ element.fills element)
    (hfill : ArgsFill c parameters args) (h : PackInstr c parameters args i) : WellKinded f i := by
  cases h with
  | allocate h => exact ⟨newArray_kinded _ rfl, rfl⟩
  | @item array e id n value h hvalue =>
    obtain ⟨element, rfl, helement⟩ := hrest array h.rest
    rcases hfill.packed args parameters h.rest with hnil | ⟨e', halone, hfills⟩ | hall
    · have hmem := h.mem
      rw [hnil] at hmem
      cases hmem
    · -- an array of other references is packed as a reference
      have hmem := h.mem
      rw [halone] at hmem
      cases List.mem_singleton.mp hmem
      have hne : value.ty ≠ .array element := by
        intro heq
        exact h.notAlone ⟨halone, hvalue.trans (congrArg some heq)⟩
      obtain ⟨hreference, hreference'⟩ :=
        Ty.element_isReference_of_fills (fills_of_operand hfills hvalue) hne
      refine ⟨(Ty.not_void_of_fills helement).1, rfl, rfl, ?_⟩
      exact (kind_of_reference hreference).trans (kind_of_reference hreference').symm
    · exact element_kinded rfl rfl (fills_of_operand (hall e h.mem) hvalue)

theorem strict_fills {op : BinOp} {op' : Ir.BinOp} {left right : Expr} (hop : strictOp? op = some op')
    (h : PartsFill c hint (.binary op left right)) :
    Fills c (some .int) left .int ∧ Fills c (some .int) right .int := by
  cases op with
  | add | sub | mul | div | lt => exact h
  | and | or => cases hop

theorem logical_fills {op : BinOp} {left right : Expr} (hop : op.isLogical)
    (h : PartsFill c hint (.binary op left right)) :
    Fills c (some .boolean) left .boolean ∧ Fills c (some .boolean) right .boolean := by
  cases op with
  | and | or => exact h
  | add | sub | mul | div | lt => cases hop

theorem branch_kinded {x : Operand} {l : Label} (hx : typeOf c hint e = some x.ty)
    (h : Fills c hint e .boolean) : WellKinded f (.condGoto (.operand x) l) := by
  have hty : x.ty = .boolean := Option.some.inj (hx.symm.trans h.boolean)
  refine ⟨trivial, ?_, ?_⟩
  · show ¬ x.ty.isVoid
    rw [hty]
    exact Bool.false_ne_true
  · show Kind.ofTy x.ty = .word
    rw [hty]
    rfl

theorem NodeInstr.wellKinded (hd : Declares c.symbols f.owner) (hall : KnownTable c.symbols)
    (hmethod : KnownSignature c.symbols c.method) (hpacks : PacksArrays c.symbols)
    (hkeeps : Expr.Keeps c (Typed c) hint e) (h : NodeInstr c hint e i) : WellKinded f i := by
  have hfills := hkeeps.self.2
  cases h with
  | field h => exact ⟨trivial, rfl⟩
  | strict hop hx hy =>
    have hoperands := strict_fills hop hfills
    exact ⟨⟨kind_of_typeOf hx hoperands.1.int, kind_of_typeOf hy hoperands.2.int⟩, rfl⟩
  | test hop hx hl => exact branch_kinded hx (logical_fills hop hfills).1
  | decided hop => exact ⟨trivial, rfl⟩
  | undecided hop hx => exact ⟨trivial, kind_of_typeOf hx (logical_fills hop hfills).2.boolean⟩
  | not hx => exact ⟨kind_of_typeOf hx (Fills.boolean hfills), rfl⟩
  | newArray hx =>
    exact ⟨newArray_kinded _ (Option.some.inj (hx.symm.trans (Fills.int hfills))), rfl⟩
  | literalArray h => exact ⟨newArray_kinded _ rfl, rfl⟩
  | item h he hx =>
    subst h
    exact element_kinded rfl rfl (fills_of_operand (hfills _ he) hx)
  | index hx helement hy =>
    exact ⟨⟨kind_of_array helement, kind_of_typeOf hy hfills.2.int⟩, rfl⟩
  | length hx helement => exact ⟨arrayLength_kinded helement, rfl⟩
  | newObject => exact ⟨newObject_kinded _, rfl⟩
  | construct => exact constructor_kinded hd hall hkeeps.self.1
  | @packed target method args i h =>
    cases hs : c.signature? target (typeOf c none target) method with
    | none =>
      rw [hs] at h
      cases h with
      | allocate h => cases h
      | item h => cases h.rest
    | some s =>
      rw [hs] at h
      exact h.wellKinded (hpacks.rest (signature_method hs)) (hfills s hs)
  | call h hvoid => exact ⟨h.kinded hd hall hmethod hpacks hkeeps, rfl⟩
  | callVoid h hvoid => exact h.kinded hd hall hmethod hpacks hkeeps

theorem meaning_field {name : String} {ty : Ty} (h : c.meaning name = .field ty) :
    ∃ var, c.symbols.field? name = some var ∧ ty = var.ty := by
  unfold Context.meaning at h
  split at h
  · cases h
  · cases h
  · rename_i field _ _ hfield
    cases h
    exact ⟨field, hfield, rfl⟩
  · split at h <;> cases h

theorem putField_kinded (hfields : DeclaresFields c.symbols f.owner) {name : String} {ty : Ty}
    {object value : Operand} (hname : c.meaning name = .field ty) (hvalue : value.ty.fills ty) :
    WellKinded f (.putField object name value) := by
  intro cls _
  have hwritten : value.ty.fills (Jvm.writtenTy f cls name value) := by
    rw [Jvm.writtenTy]
    split
    · rename_i field hdeclared
      split at hdeclared
      · obtain ⟨var, hvar, hty⟩ := hfields hdeclared
        obtain ⟨var', hvar', rfl⟩ := meaning_field hname
        cases hvar.symm.trans hvar'
        rwa [hty]
      · cases hdeclared
    · exact Ty.fills_self hvalue
  rw [descriptor_kinds_of_value _ (Ty.not_void_of_fills hwritten).2, kind_of_fills hwritten]

theorem IsTest.wellKinded {value : Ir.Value} {l : Label} (h : IsTest c e value)
    (hkeeps : Expr.Keeps c (Typed c) (some .boolean) e) (hfills : Fills c (some .boolean) e .boolean) :
    WellKinded f (.condGoto value l) := by
  cases h with
  | less he hx hy =>
    have hless := hkeeps.stripParens
    rw [he] at hless
    have hoperands := strict_fills rfl hless.self.2
    exact ⟨⟨kind_of_typeOf hx hoperands.1.int, kind_of_typeOf hy hoperands.2.int⟩,
      Bool.false_ne_true, rfl⟩
  | operand hx => exact branch_kinded hx hfills

theorem StmtInstr.wellKinded (hd : Declares c.symbols f.owner) (hall : KnownTable c.symbols)
    (hmethod : KnownSignature c.symbols c.method) (hpacks : PacksArrays c.symbols)
    (hfields : DeclaresFields c.symbols f.owner) (hreturn : f.method.returnTy = c.method.returnTy)
    {s : Stmt} (hkeeps : Stmt.Keeps c (Typed c) (StmtFills c) s) (h : StmtInstr c s i) :
    WellKinded f i := by
  have hstored : ∀ {target : String} {value : Expr} {ty : Ty} {x : Operand},
      Stmt.Keeps c (Typed c) (StmtFills c) (.assign target value) → c.nameTy? target = some ty →
      typeOf c (some ty) value = some x.ty → x.ty.fills ty := by
    intro target value ty x hkeeps hname hx
    rw [Stmt.Keeps] at hkeeps
    obtain ⟨⟨ty', hty', hfills⟩, _⟩ := hkeeps
    cases hname.symm.trans hty'
    exact fills_of_operand hfills hx
  cases h with
  | @assign target value ty x h hx =>
    have hname : c.nameTy? target = some ty := by rw [Context.nameTy?, h]
    exact ⟨trivial, kind_of_fills (hstored hkeeps hname hx)⟩
  | @putField target value ty x h hx =>
    have hname : c.nameTy? target = some ty := by rw [Context.nameTy?, h]
    exact putField_kinded hfields h (hstored hkeeps hname hx)
  | element harray helement hx hy =>
    rw [Stmt.Keeps] at hkeeps
    obtain ⟨⟨hindex, hvalue⟩, _⟩ := hkeeps
    exact element_kinded (kind_of_array helement) (kind_of_typeOf hx hindex.int)
      (fills_of_operand (hvalue _ (helement ▸ harray)) hy)
  | branch h =>
    rw [Stmt.Keeps] at hkeeps
    exact h.wellKinded hkeeps.2.1 hkeeps.1
  | loop h =>
    rw [Stmt.Keeps] at hkeeps
    exact h.wellKinded hkeeps.2.1 hkeeps.1
  | ret => exact trivial
  | retValue hx =>
    rw [Stmt.Keeps] at hkeeps
    have hfills := fills_of_operand hkeeps.1 hx
    show returnKind f.method.returnTy = some _
    rw [hreturn, returnKind, if_neg (Ty.not_void_of_fills hfills).2, kind_of_fills hfills]
  | @call value target method args call hvalue h =>
    rw [Stmt.Keeps] at hkeeps
    have hcall := hkeeps.2.stripParens
    rw [hvalue] at hcall
    exact h.kinded hd hall hmethod hpacks hcall

/-- The instructions of a lowered body whose types are right have operands of the right kinds. -/
theorem lowerBody_wellKinded {d : Method} (hc : c.method = .ofMethod d)
    (hd : Declares c.symbols f.owner) (hall : KnownTable c.symbols)
    (hmethod : KnownSignature c.symbols c.method) (hpacks : PacksArrays c.symbols)
    (hfields : DeclaresFields c.symbols f.owner) (hreturn : f.method.returnTy = c.method.returnTy)
    (hkeeps : Stmt.AllKeep c (Typed c) (StmtFills c) d.body) {k k' : Counters} {code : List Instr}
    (h : Gives (lowerBody c.symbols d) k code k') : ∀ i ∈ code, WellKinded f i := by
  have hcode := lowerBody_codes hc (Φ := WellKinded f)
    (fun _ _ _ hkeeps hi => hi.wellKinded hd hall hmethod hpacks hkeeps)
    (fun _ _ hkeeps hi => hi.wellKinded hd hall hmethod hpacks hfields hreturn hkeeps)
    (fun _ => trivial) hkeeps h
  exact hcode.all fun _ _ _ _ => ⟨trivial, trivial⟩

end Instructions

end MiniJava.Semantics
