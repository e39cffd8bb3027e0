import MiniJava.Proofs.Semantics.Source

/-!
# What programs keep to

A rule is asked of every expression of a method, together with the type that the place of the
expression wants. The rule that emitted code depends on is about names: emitted code refers to
classes and methods by name, so names are plain identifiers, a class that is named is the class
itself or an import, and a call to a method of the class passes as many arguments as the method
takes. None of this is checked when code is made.
-/

namespace MiniJava.Semantics

/-! ## Rules -/

/-- What is asked of an expression in a place that wants a type. -/
abbrev Rule := Option Ty → Expr → Prop

mutual

/-- An expression and all its subexpressions keep to a rule. The name of a class that a call is on is
no subexpression. -/
def Expr.Keeps (c : Context) (p : Rule) (hint : Option Ty) : Expr → Prop
  | .literal value => p hint (.literal value)
  | .self => p hint .self
  | .var name => p hint (.var name)
  | .paren inner => p hint (.paren inner) ∧ Expr.Keeps c p hint inner
  | .binary op left right =>
    p hint (.binary op left right) ∧ Expr.Keeps c p (some op.operandTy) left
      ∧ Expr.Keeps c p (some op.operandTy) right
  | .not operand => p hint (.not operand) ∧ Expr.Keeps c p (some .boolean) operand
  | .newArray element size => p hint (.newArray element size) ∧ Expr.Keeps c p (some .int) size
  | .arrayLiteral elements =>
    p hint (.arrayLiteral elements) ∧ Expr.ItemsKeep c p (hint.bind (·.element?)) elements
  | .index array index =>
    p hint (.index array index) ∧ Expr.Keeps c p none array ∧ Expr.Keeps c p (some .int) index
  | .length array => p hint (.length array) ∧ Expr.Keeps c p none array
  | .newObject name => p hint (.newObject name)
  | .call target method args =>
    p hint (.call target method args) ∧ (c.classTarget? target = none → Expr.Keeps c p none target)
      ∧ Expr.ArgsKeep c p
          (.ofSignature? (c.signature? target (typeOf c none target) method)) args

/-- The items of an array literal keep to a rule. -/
def Expr.ItemsKeep (c : Context) (p : Rule) (hint : Option Ty) : List Expr → Prop
  | [] => True
  | e :: rest => Expr.Keeps c p hint e ∧ Expr.ItemsKeep c p hint rest

/-- The arguments of a call keep to a rule. -/
def Expr.ArgsKeep (c : Context) (p : Rule) (parameters : Parameters) : List Expr → Prop
  | [] => True
  | e :: rest =>
    match parameters.packing? with
    | some array =>
      Expr.Keeps c p (some (packedTy array)) e ∧ Expr.ItemsKeep c p (some (packedTy array)) rest
    | none => Expr.Keeps c p parameters.fixed.head? e ∧ Expr.ArgsKeep c p parameters.next rest

end

mutual

/-- Every expression in a statement keeps to a rule, and every statement in it to another one. -/
def Stmt.Keeps (c : Context) (p : Rule) (q : Stmt → Prop) : Stmt → Prop
  | .assign target value =>
    q (.assign target value) ∧ Expr.Keeps c p (c.nameTy? target) value
  | .arrayAssign target index value =>
    q (.arrayAssign target index value) ∧ p none (.var target) ∧ Expr.Keeps c p (some .int) index
      ∧ Expr.Keeps c p ((c.nameTy? target).bind (·.element?)) value
  | .ite condition thenBranch elseBranch =>
    q (.ite condition thenBranch elseBranch) ∧ Expr.Keeps c p (some .boolean) condition
      ∧ Stmt.Keeps c p q thenBranch ∧ Stmt.Keeps c p q elseBranch
  | .loop condition body =>
    q (.loop condition body) ∧ Expr.Keeps c p (some .boolean) condition ∧ Stmt.Keeps c p q body
  | .block body => q (.block body) ∧ Stmt.AllKeep c p q body
  | .ret none => q (.ret none)
  | .ret (some value) =>
    q (.ret (some value)) ∧ Expr.Keeps c p (some c.method.returnTy) value
  | .expr value => q (.expr value) ∧ Expr.Keeps c p none value

/-- Every statement of several keeps to the rules. -/
def Stmt.AllKeep (c : Context) (p : Rule) (q : Stmt → Prop) : List Stmt → Prop
  | [] => True
  | s :: rest => Stmt.Keeps c p q s ∧ Stmt.AllKeep c p q rest

end

theorem Expr.Keeps.self {c : Context} {p : Rule} {hint : Option Ty} {e : Expr}
    (h : Expr.Keeps c p hint e) : p hint e := by
  cases e with
  | literal | self | var | newObject =>
    rw [Expr.Keeps] at h
    exact h
  | paren | binary | not | newArray | arrayLiteral | index | length | call =>
    rw [Expr.Keeps] at h
    exact h.1

section Weaker

variable {c : Context} {p p' : Rule} {q q' : Stmt → Prop}

mutual

theorem Expr.Keeps.mono (hp : ∀ hint e, p hint e → p' hint e) : ∀ (e : Expr) {hint : Option Ty},
    Expr.Keeps c p hint e → Expr.Keeps c p' hint e
  | .literal _, _, h | .self, _, h | .var _, _, h | .newObject _, _, h => by
    rw [Expr.Keeps] at h ⊢
    exact hp _ _ h
  | .paren inner, _, h => by
    rw [Expr.Keeps] at h ⊢
    exact ⟨hp _ _ h.1, Expr.Keeps.mono hp inner h.2⟩
  | .binary _ left right, _, h => by
    rw [Expr.Keeps] at h ⊢
    exact ⟨hp _ _ h.1, Expr.Keeps.mono hp left h.2.1, Expr.Keeps.mono hp right h.2.2⟩
  | .not operand, _, h => by
    rw [Expr.Keeps] at h ⊢
    exact ⟨hp _ _ h.1, Expr.Keeps.mono hp operand h.2⟩
  | .newArray _ size, _, h => by
    rw [Expr.Keeps] at h ⊢
    exact ⟨hp _ _ h.1, Expr.Keeps.mono hp size h.2⟩
  | .arrayLiteral elements, _, h => by
    rw [Expr.Keeps] at h ⊢
    exact ⟨hp _ _ h.1, Expr.ItemsKeep.mono hp elements h.2⟩
  | .index array index, _, h => by
    rw [Expr.Keeps] at h ⊢
    exact ⟨hp _ _ h.1, Expr.Keeps.mono hp array h.2.1, Expr.Keeps.mono hp index h.2.2⟩
  | .length array, _, h => by
    rw [Expr.Keeps] at h ⊢
    exact ⟨hp _ _ h.1, Expr.Keeps.mono hp array h.2⟩
  | .call target _ args, _, h => by
    rw [Expr.Keeps] at h ⊢
    exact ⟨hp _ _ h.1, fun hclass => Expr.Keeps.mono hp target (h.2.1 hclass),
      Expr.ArgsKeep.mono hp args h.2.2⟩

theorem Expr.ItemsKeep.mono (hp : ∀ hint e, p hint e → p' hint e) : ∀ (es : List Expr)
    {hint : Option Ty}, Expr.ItemsKeep c p hint es → Expr.ItemsKeep c p' hint es
  | [], _, _ => trivial
  | e :: rest, _, h => ⟨Expr.Keeps.mono hp e h.1, Expr.ItemsKeep.mono hp rest h.2⟩

theorem Expr.ArgsKeep.mono (hp : ∀ hint e, p hint e → p' hint e) : ∀ (es : List Expr)
    {parameters : Parameters}, Expr.ArgsKeep c p parameters es → Expr.ArgsKeep c p' parameters es
  | [], _, _ => trivial
  | e :: rest, parameters, h => by
    rw [Expr.ArgsKeep] at h ⊢
    cases hpacking : parameters.packing? with
    | some array =>
      rw [hpacking] at h
      exact ⟨Expr.Keeps.mono hp e h.1, Expr.ItemsKeep.mono hp rest h.2⟩
    | none =>
      rw [hpacking] at h
      exact ⟨Expr.Keeps.mono hp e h.1, Expr.ArgsKeep.mono hp rest h.2⟩

end

mutual

theorem Stmt.Keeps.mono (hp : ∀ hint e, p hint e → p' hint e) (hq : ∀ s, q s → q' s) :
    ∀ (s : Stmt), Stmt.Keeps c p q s → Stmt.Keeps c p' q' s
  | .assign _ value, h => by
    rw [Stmt.Keeps] at h ⊢
    exact ⟨hq _ h.1, Expr.Keeps.mono hp value h.2⟩
  | .arrayAssign _ index value, h => by
    rw [Stmt.Keeps] at h ⊢
    exact ⟨hq _ h.1, hp _ _ h.2.1, Expr.Keeps.mono hp index h.2.2.1, Expr.Keeps.mono hp value h.2.2.2⟩
  | .ite condition thenBranch elseBranch, h => by
    rw [Stmt.Keeps] at h ⊢
    exact ⟨hq _ h.1, Expr.Keeps.mono hp condition h.2.1, Stmt.Keeps.mono hp hq thenBranch h.2.2.1,
      Stmt.Keeps.mono hp hq elseBranch h.2.2.2⟩
  | .loop condition body, h => by
    rw [Stmt.Keeps] at h ⊢
    exact ⟨hq _ h.1, Expr.Keeps.mono hp condition h.2.1, Stmt.Keeps.mono hp hq body h.2.2⟩
  | .block body, h => by
    rw [Stmt.Keeps] at h ⊢
    exact ⟨hq _ h.1, Stmt.AllKeep.mono hp hq body h.2⟩
  | .ret none, h => by
    rw [Stmt.Keeps] at h ⊢
    exact hq _ h
  | .ret (some value), h => by
    rw [Stmt.Keeps] at h ⊢
    exact ⟨hq _ h.1, Expr.Keeps.mono hp value h.2⟩
  | .expr value, h => by
    rw [Stmt.Keeps] at h ⊢
    exact ⟨hq _ h.1, Expr.Keeps.mono hp value h.2⟩

theorem Stmt.AllKeep.mono (hp : ∀ hint e, p hint e → p' hint e) (hq : ∀ s, q s → q' s) :
    ∀ (body : List Stmt), Stmt.AllKeep c p q body → Stmt.AllKeep c p' q' body
  | [], _ => trivial
  | s :: rest, h => ⟨Stmt.Keeps.mono hp hq s h.1, Stmt.AllKeep.mono hp hq rest h.2⟩

end

end Weaker

section Unrestricted

variable (c : Context)

mutual

theorem Expr.keeps_nothing : ∀ (e : Expr) (hint : Option Ty), Expr.Keeps c (fun _ _ => True) hint e
  | .literal _, _ | .self, _ | .var _, _ | .newObject _, _ => by rw [Expr.Keeps]; trivial
  | .paren inner, hint => by
    rw [Expr.Keeps]
    exact ⟨trivial, Expr.keeps_nothing inner hint⟩
  | .binary op left right, hint => by
    rw [Expr.Keeps]
    exact ⟨trivial, Expr.keeps_nothing left _, Expr.keeps_nothing right _⟩
  | .not operand, hint => by
    rw [Expr.Keeps]
    exact ⟨trivial, Expr.keeps_nothing operand _⟩
  | .newArray element size, hint => by
    rw [Expr.Keeps]
    exact ⟨trivial, Expr.keeps_nothing size _⟩
  | .arrayLiteral elements, hint => by
    rw [Expr.Keeps]
    exact ⟨trivial, Expr.itemsKeep_nothing elements _⟩
  | .index array index, hint => by
    rw [Expr.Keeps]
    exact ⟨trivial, Expr.keeps_nothing array _, Expr.keeps_nothing index _⟩
  | .length array, hint => by
    rw [Expr.Keeps]
    exact ⟨trivial, Expr.keeps_nothing array _⟩
  | .call target method args, hint => by
    rw [Expr.Keeps]
    exact ⟨trivial, fun _ => Expr.keeps_nothing target _, Expr.argsKeep_nothing args _⟩

theorem Expr.itemsKeep_nothing : ∀ (es : List Expr) (hint : Option Ty),
    Expr.ItemsKeep c (fun _ _ => True) hint es
  | [], _ => by rw [Expr.ItemsKeep]; trivial
  | e :: rest, hint => by
    rw [Expr.ItemsKeep]
    exact ⟨Expr.keeps_nothing e hint, Expr.itemsKeep_nothing rest hint⟩

theorem Expr.argsKeep_nothing : ∀ (es : List Expr) (parameters : Parameters),
    Expr.ArgsKeep c (fun _ _ => True) parameters es
  | [], _ => by rw [Expr.ArgsKeep]; trivial
  | e :: rest, parameters => by
    rw [Expr.ArgsKeep]
    cases parameters.packing? with
    | some array => exact ⟨Expr.keeps_nothing e _, Expr.itemsKeep_nothing rest _⟩
    | none => exact ⟨Expr.keeps_nothing e _, Expr.argsKeep_nothing rest _⟩

end

mutual

theorem Stmt.keeps_nothing : ∀ (s : Stmt), Stmt.Keeps c (fun _ _ => True) (fun _ => True) s
  | .assign target value => by
    rw [Stmt.Keeps]
    exact ⟨trivial, Expr.keeps_nothing c value _⟩
  | .arrayAssign target index value => by
    rw [Stmt.Keeps]
    exact ⟨trivial, trivial, Expr.keeps_nothing c index _, Expr.keeps_nothing c value _⟩
  | .ite condition thenBranch elseBranch => by
    rw [Stmt.Keeps]
    exact ⟨trivial, Expr.keeps_nothing c condition _, Stmt.keeps_nothing thenBranch,
      Stmt.keeps_nothing elseBranch⟩
  | .loop condition body => by
    rw [Stmt.Keeps]
    exact ⟨trivial, Expr.keeps_nothing c condition _, Stmt.keeps_nothing body⟩
  | .block body => by
    rw [Stmt.Keeps]
    exact ⟨trivial, Stmt.allKeep_nothing body⟩
  | .ret none => by rw [Stmt.Keeps]; trivial
  | .ret (some value) => by
    rw [Stmt.Keeps]
    exact ⟨trivial, Expr.keeps_nothing c value _⟩
  | .expr value => by
    rw [Stmt.Keeps]
    exact ⟨trivial, Expr.keeps_nothing c value _⟩

theorem Stmt.allKeep_nothing : ∀ (body : List Stmt),
    Stmt.AllKeep c (fun _ _ => True) (fun _ => True) body
  | [] => by rw [Stmt.AllKeep]; trivial
  | s :: rest => by
    rw [Stmt.AllKeep]
    exact ⟨Stmt.keeps_nothing s, Stmt.allKeep_nothing rest⟩

end

end Unrestricted

/-! ## Names -/

/-- A plain identifier is not the word for the receiver, and has none of the characters that dotted
names, full class names and the names of constructors are told by. -/
def PlainName (name : String) : Prop :=
  name ≠ "this" ∧ ∀ c ∈ name.toList, c ≠ '.' ∧ c ≠ '/' ∧ c ≠ '<'

instance (name : String) : Decidable (PlainName name) :=
  decidable_of_iff (name ≠ "this" ∧ name.toList.all fun c => c != '.' && c != '/' && c != '<')
    (by simp [PlainName, and_assoc])

/-- A class that is named is the class itself or an import. -/
def Known (symbols : SymbolTable) (name : String) : Prop :=
  PlainName name ∧ (name = symbols.className ∨ symbols.isImport name)

instance (symbols : SymbolTable) (name : String) : Decidable (Known symbols name) :=
  inferInstanceAs (Decidable (_ ∧ _))

/-- The classes in a type are known. -/
def KnownTy (symbols : SymbolTable) : Ty → Prop
  | .object name => Known symbols name
  | .array element => KnownTy symbols element
  | .int | .boolean | .string | .void => True

/-- The types in a signature are known. -/
structure KnownSignature (symbols : SymbolTable) (s : Signature) : Prop where
  name : PlainName s.name
  returnTy : KnownTy symbols s.returnTy
  params : ∀ p ∈ s.params, KnownTy symbols p.ty
  locals : ∀ var ∈ s.locals, KnownTy symbols var.ty

/-- The names in a symbol table are plain, and the types in it are known. -/
structure KnownTable (symbols : SymbolTable) : Prop where
  className : PlainName symbols.className
  fields : ∀ f ∈ symbols.fields, KnownTy symbols f.ty
  methods : ∀ s ∈ symbols.methods, KnownSignature symbols s

/-- What a node of an expression keeps to as far as names go. -/
def Named (c : Context) : Rule
  | _, .newObject name => Known c.symbols name
  | _, .newArray element _ => KnownTy c.symbols element
  | _, .var name => PlainName name
  | _, .call target method _ =>
    PlainName method ∧ ∀ name, c.classTarget? target = some name → PlainName name
  | _, .literal _ | _, .self | _, .paren _ | _, .binary .. | _, .not _ | _, .arrayLiteral _
  | _, .index .. | _, .length _ => True

/-! ## The classes in the types of expressions -/

/-- The classes in a type are of some kind. -/
def OfClasses (K : String → Prop) : Ty → Prop
  | .object name => K name
  | .array element => OfClasses K element
  | .int | .boolean | .string | .void => True

theorem OfClasses.mono {K K' : String → Prop} (hK : ∀ name, K name → K' name) {ty : Ty}
    (h : OfClasses K ty) : OfClasses K' ty := by
  induction ty with
  | object name => exact hK name h
  | array element ih => exact ih h
  | int | boolean | string | void => trivial

theorem ofClasses_known {symbols : SymbolTable} {ty : Ty} :
    OfClasses (Known symbols) ty ↔ KnownTy symbols ty := by
  induction ty with
  | array element ih => exact ih
  | object | int | boolean | string | void => exact .rfl

/-- Everything that a name stands for has a type of classes of some kind. -/
structure NamesOfClasses (K : String → Prop) (c : Context) : Prop where
  className : K c.symbols.className
  fields : ∀ f ∈ c.symbols.fields, OfClasses K f.ty
  results : ∀ s ∈ c.symbols.methods, OfClasses K s.returnTy
  params : ∀ p ∈ c.method.params, OfClasses K p.ty
  locals : ∀ var ∈ c.method.locals, OfClasses K var.ty

/-- The classes that a node of an expression makes objects or arrays of are of some kind. -/
def CreatesOf (K : String → Prop) : Rule
  | _, .newObject name => K name
  | _, .newArray element _ => OfClasses K element
  | _, .var _ | _, .call .. | _, .literal _ | _, .self | _, .paren _ | _, .binary .. | _, .not _
  | _, .arrayLiteral _ | _, .index .. | _, .length _ => True

section Classes

variable {K : String → Prop} {c : Context} {p : Rule}

theorem nameTy_ofClasses (hnames : NamesOfClasses K c) {name : String} {ty : Ty}
    (h : c.nameTy? name = some ty) : OfClasses K ty := by
  rw [Context.nameTy?, Context.meaning] at h
  cases hlocal : c.method.local? name with
  | some var =>
    simp only [hlocal] at h
    cases h
    exact hnames.locals var (List.mem_of_find?_eq_some hlocal)
  | none =>
    cases hparam : c.method.param? name with
    | some param =>
      simp only [hlocal, hparam] at h
      cases h
      exact hnames.params param (List.mem_of_find?_eq_some hparam)
    | none =>
      cases hfield : c.symbols.field? name with
      | some field =>
        simp only [hlocal, hparam, hfield] at h
        cases h
        exact hnames.fields field (List.mem_of_find?_eq_some hfield)
      | none =>
        simp only [hlocal, hparam, hfield] at h
        split at h
        · rename_i heq
          split at heq <;> cases heq
        · rename_i heq
          split at heq <;> cases heq
        · cases h
        · cases h

theorem signature_method {target : Expr} {ty : Option Ty} {method : String} {s : Signature}
    (h : c.signature? target ty method = some s) : c.symbols.method? method = some s := by
  unfold Context.signature? at h
  split at h
  all_goals
    dsimp only at h
    split at h
    · exact h
    · cases h

theorem callTy_ofClasses (hnames : NamesOfClasses K c) {target : Expr} {targetTy : Option Ty}
    {method : String} {hint : Option Ty} (hhint : ∀ ty, hint = some ty → OfClasses K ty) {ty : Ty}
    (h : callTy? (c.signature? target targetTy method) hint = some ty) : OfClasses K ty := by
  have hty : ∀ (x : Ty), (if x.isVoid then none else some x) = some ty → x = ty := by
    intro x hx
    split at hx
    · cases hx
    · exact Option.some.inj hx
  cases hs : c.signature? target targetTy method with
  | some s =>
    rw [hs] at h
    rw [← hty _ h]
    exact hnames.results s (List.mem_of_find?_eq_some (signature_method hs))
  | none =>
    rw [hs] at h
    rw [← hty _ h]
    cases hint with
    | none => trivial
    | some wanted => exact hhint wanted rfl

mutual

/-- The classes in the type of an expression are those of names and of what is created, if the ones in
the type that its place wants are. -/
theorem typeOf_ofClasses (hnames : NamesOfClasses K c) (hp : ∀ hint e, p hint e → CreatesOf K hint e) :
    ∀ (e : Expr) (hint : Option Ty), (∀ ty, hint = some ty → OfClasses K ty) →
      Expr.Keeps c p hint e → ∀ ty, typeOf c hint e = some ty → OfClasses K ty
  | .literal value, hint, hhint, hkeeps, ty, h => by
    rw [typeOf] at h
    cases h
    cases value <;> trivial
  | .self, hint, hhint, hkeeps, ty, h => by
    rw [typeOf] at h
    cases h
    exact hnames.className
  | .var name, hint, hhint, hkeeps, ty, h => by
    rw [typeOf] at h
    exact nameTy_ofClasses hnames h
  | .paren inner, hint, hhint, hkeeps, ty, h => by
    rw [typeOf] at h
    rw [Expr.Keeps] at hkeeps
    exact typeOf_ofClasses hnames hp inner hint hhint hkeeps.2 ty h
  | .binary op left right, hint, hhint, hkeeps, ty, h => by
    rw [Expr.Keeps] at hkeeps
    cases op with
    | add | sub | mul | div | lt =>
      rw [typeOf] at h
      cases h
      trivial
    | and | or =>
      have hright := typeOf_ofClasses hnames hp right (some .boolean)
        (fun ty h => by cases h; trivial) hkeeps.2.2 ty
      rw [typeOf] at h
      split at h
      · exact hright h
      · cases h
        trivial
  | .not operand, hint, hhint, hkeeps, ty, h => by
    rw [typeOf] at h
    cases h
    trivial
  | .newArray element size, hint, hhint, hkeeps, ty, h => by
    rw [typeOf] at h
    cases h
    exact hp _ _ hkeeps.self
  | .arrayLiteral elements, hint, hhint, hkeeps, ty, h => by
    rw [typeOf] at h
    cases h
    rw [Expr.Keeps] at hkeeps
    refine itemTy_ofClasses hnames hp elements (hint.bind (·.element?)) (fun ty h => ?_) hkeeps.2
    obtain ⟨array, hhint', helement⟩ := Option.bind_eq_some_iff.mp h
    have harray := hhint array hhint'
    cases array <;> cases helement
    exact harray
  | .index array place, hint, hhint, hkeeps, ty, h => by
    rw [typeOf] at h
    rw [Expr.Keeps] at hkeeps
    obtain ⟨arrayTy, hty, helement⟩ := Option.bind_eq_some_iff.mp h
    have harray := typeOf_ofClasses hnames hp array none nofun hkeeps.2.1 arrayTy hty
    cases arrayTy <;> cases helement
    exact harray
  | .length array, hint, hhint, hkeeps, ty, h => by
    rw [typeOf] at h
    cases h
    trivial
  | .newObject name, hint, hhint, hkeeps, ty, h => by
    rw [typeOf] at h
    cases h
    exact hp _ _ hkeeps.self
  | .call target method args, hint, hhint, hkeeps, ty, h => by
    rw [typeOf] at h
    exact callTy_ofClasses hnames hhint h

theorem itemTy_ofClasses (hnames : NamesOfClasses K c) (hp : ∀ hint e, p hint e → CreatesOf K hint e) :
    ∀ (es : List Expr) (hint : Option Ty), (∀ ty, hint = some ty → OfClasses K ty) →
      Expr.ItemsKeep c p hint es → OfClasses K (itemTy c hint es)
  | [], hint, hhint, hkeeps => by
    rw [itemTy]
    cases hint with
    | none => trivial
    | some ty => exact hhint ty rfl
  | e :: rest, hint, hhint, hkeeps => by
    rw [itemTy]
    rw [Expr.ItemsKeep] at hkeeps
    cases he : typeOf c hint e with
    | some ty => exact typeOf_ofClasses hnames hp e hint hhint hkeeps.1 ty he
    | none =>
      cases hint with
      | none => trivial
      | some ty => exact hhint ty rfl

end

theorem KnownSignature.namesOfClasses (hall : KnownTable c.symbols)
    (hmethod : KnownSignature c.symbols c.method) : NamesOfClasses (Known c.symbols) c where
  className := ⟨hall.className, .inl rfl⟩
  fields f hf := ofClasses_known.mpr (hall.fields f hf)
  results s hs := ofClasses_known.mpr (hall.methods s hs).returnTy
  params p hp := ofClasses_known.mpr (hmethod.params p hp)
  locals var hvar := ofClasses_known.mpr (hmethod.locals var hvar)

theorem Named.createsOf {hint : Option Ty} {e : Expr} (h : Named c hint e) :
    CreatesOf (Known c.symbols) hint e := by
  cases e with
  | newObject => exact h
  | newArray => exact ofClasses_known.mpr h
  | _ => trivial

theorem typeOf_known (hall : KnownTable c.symbols) (hmethod : KnownSignature c.symbols c.method)
    (hp : ∀ hint e, p hint e → Named c hint e) (e : Expr) (hint : Option Ty)
    (hhint : ∀ ty, hint = some ty → KnownTy c.symbols ty) (hkeeps : Expr.Keeps c p hint e) (ty : Ty)
    (h : typeOf c hint e = some ty) : KnownTy c.symbols ty :=
  ofClasses_known.mp (typeOf_ofClasses (hmethod.namesOfClasses hall)
    (fun hint e h => (hp hint e h).createsOf) e hint
    (fun ty h => ofClasses_known.mpr (hhint ty h)) hkeeps ty h)

end Classes

end MiniJava.Semantics
