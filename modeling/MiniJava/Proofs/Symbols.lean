import Mathlib.Data.List.Nodup
import MiniJava.Proofs.Lowering.Modules

/-!
# Which programs have a symbol table

All that a program does against the rules on method names and variable arguments is listed here in the
order of the source, fields first. The table is refused for the first of it, and made if there is
nothing. In a table that is made every name of a method leads to the one method declared under it.
-/

namespace MiniJava

/-! ## The first reason -/

/-- A computation fails for the first of some reasons, and succeeds if there is none. -/
def FailsFirst {ε α : Type} (reasons : List ε) (x : Except ε α) : Prop :=
  ∀ e, x = .error e ↔ reasons.head? = some e

namespace FailsFirst

variable {ε α β : Type} {reasons more : List ε} {x : Except ε α}

theorem pure (a : α) : FailsFirst [] (Pure.pure a : Except ε α) :=
  fun _ => ⟨nofun, nofun⟩

theorem error (e : ε) (more : List ε) : FailsFirst (e :: more) (.error e : Except ε α) := by
  intro e'
  rw [List.head?_cons, Except.error.injEq, Option.some.injEq]

theorem succeeds_iff (h : FailsFirst reasons x) : (∃ a, x = .ok a) ↔ reasons = [] := by
  cases x with
  | ok a =>
    refine iff_of_true ⟨a, rfl⟩ ?_
    cases reasons with
    | nil => rfl
    | cons e more => cases (h e).mpr rfl
  | error e =>
    refine iff_of_false nofun ?_
    rintro rfl
    cases (h e).mp rfl

theorem bind {f : α → Except ε β} (hx : FailsFirst reasons x) (hf : ∀ a, FailsFirst more (f a)) :
    FailsFirst (reasons ++ more) (x >>= f) := by
  cases x with
  | ok a =>
    rw [hx.succeeds_iff.mp ⟨a, rfl⟩, List.nil_append]
    exact hf a
  | error e =>
    intro e'
    rw [List.head?_append, (hx e).mp rfl, Option.some_or, Option.some.injEq]
    constructor
    · rintro ⟨⟩
      rfl
    · rintro rfl
      rfl

theorem mapM {f : α → Except ε β} {reasons : α → List ε} (hf : ∀ a, FailsFirst (reasons a) (f a)) :
    ∀ items : List α, FailsFirst (items.flatMap reasons) (items.mapM f)
  | [] => by
    rw [List.mapM_nil]
    exact .pure _
  | item :: rest => by
    rw [List.mapM_cons, List.flatMap_cons, ← List.append_nil (rest.flatMap reasons)]
    exact (hf item).bind fun _ => (mapM hf rest).bind fun _ => .pure _

end FailsFirst

namespace SymbolTable

/-! ## Violations -/

/-- What is against the rules in a field. -/
def fieldViolations (f : Field) : List CompileError :=
  if f.isVarargs then [.varargsNotAllowed .field f.name] else []

/-- What is against the rules in a method behind some others: its name, its return type, and its
parameters in front of the last. -/
def methodViolations (before : List Method) (m : Method) : List CompileError :=
  (if m.name ∈ before.map (·.name) then [.duplicateMethod m.name] else []) ++
    ((if m.returnsVarargs then [.varargsNotAllowed .returnTy m.name] else []) ++
      (m.params.dropLast.filter (·.isVarargs)).map (.varargsNotAllowed .nonFinalParam ·.name))

/-- What is against the rules in methods behind some others, in their order. -/
def methodsViolations (before : List Method) : List Method → List CompileError
  | [] => []
  | m :: rest => methodViolations before m ++ methodsViolations (before ++ [m]) rest

/-- What is against the rules in a program: in its fields, and then in its methods. -/
def violations (p : Program) : List CompileError :=
  p.mainClass.fields.flatMap fieldViolations ++ methodsViolations [] p.mainClass.methods

theorem ofField_fails (f : Field) : FailsFirst (fieldViolations f) (ofField f) := by
  rw [fieldViolations, ofField]
  split
  · exact .error _ _
  · exact .pure _

theorem ofMethod_fails {seen : List String} {before : List Method}
    (hseen : ∀ name, name ∈ seen ↔ name ∈ before.map (·.name)) (m : Method) :
    FailsFirst (methodViolations before m) (ofMethod seen m) := by
  rw [methodViolations, ofMethod]
  simp only [hseen]
  split
  · exact .error _ _
  · rw [List.nil_append]
    split
    · exact .error _ _
    · rw [List.nil_append, misplacedVarargs?, ← List.head?_filter]
      cases m.params.dropLast.filter (·.isVarargs) with
      | nil => exact .pure _
      | cons param more => exact .error _ _

theorem ofMethods_fails : ∀ (methods : List Method) {seen : List String} {before : List Method},
    (∀ name, name ∈ seen ↔ name ∈ before.map (·.name)) →
      FailsFirst (methodsViolations before methods) (ofMethods seen methods)
  | [], _, _, _ => .pure _
  | m :: rest, seen, before, hseen => by
    have hnext : ∀ name, name ∈ m.name :: seen ↔ name ∈ (before ++ [m]).map (·.name) := by
      intro name
      rw [List.mem_cons, hseen, List.map_append, List.mem_append, List.map_singleton,
        List.mem_singleton, or_comm]
    rw [methodsViolations, ofMethods, ← List.append_nil (methodsViolations (before ++ [m]) rest)]
    exact (ofMethod_fails hseen m).bind fun _ => (ofMethods_fails rest hnext).bind fun _ => .pure _

theorem build_fails (p : Program) : FailsFirst (violations p) (build p) := by
  have hmethods : FailsFirst (methodsViolations [] p.mainClass.methods)
      (ofMethods [] p.mainClass.methods) :=
    ofMethods_fails _ fun _ => Iff.rfl
  rw [violations, build, ← List.append_nil (methodsViolations [] p.mainClass.methods)]
  exact (FailsFirst.mapM ofField_fails _).bind fun _ => hmethods.bind fun _ => .pure _

/-! ## Allowed programs -/

/-- A method takes variable arguments nowhere but in its last parameter. -/
structure AllowedMethod (m : Method) : Prop where
  returns : m.returnsVarargs = false
  params : ∀ i (hi : i < m.params.length), m.params[i].isVarargs → i + 1 = m.params.length

/-- A program names every method once, and takes variable arguments only where methods may. -/
structure Allowed (p : Program) : Prop where
  fields : ∀ f ∈ p.mainClass.fields, f.isVarargs = false
  distinct : (p.mainClass.methods.map (·.name)).Nodup
  methods : ∀ m ∈ p.mainClass.methods, AllowedMethod m

theorem misplaced_eq_nil {params : List Param} : params.dropLast.filter (·.isVarargs) = [] ↔
    ∀ i (hi : i < params.length), params[i].isVarargs → i + 1 = params.length := by
  rw [List.filter_eq_nil_iff]
  constructor
  · intro h i hi hvarargs
    by_contra hlast
    have hi' : i < params.dropLast.length := by
      rw [List.length_dropLast]
      omega
    refine h _ (List.getElem_mem hi') ?_
    rwa [List.getElem_dropLast]
  · rintro h param hparam hvarargs
    obtain ⟨i, hi, rfl⟩ := List.getElem_of_mem hparam
    rw [List.length_dropLast] at hi
    rw [List.getElem_dropLast] at hvarargs
    have := h i (by omega) hvarargs
    omega

theorem methodViolations_eq_nil {before : List Method} {m : Method} :
    methodViolations before m = [] ↔ m.name ∉ before.map (·.name) ∧ AllowedMethod m := by
  rw [methodViolations, List.append_eq_nil_iff, List.append_eq_nil_iff, List.map_eq_nil_iff,
    misplaced_eq_nil]
  constructor
  · rintro ⟨hname, hreturns, hparams⟩
    refine ⟨fun hmem => ?_, Bool.eq_false_iff.mpr fun hvarargs => ?_, hparams⟩
    · rw [if_pos hmem] at hname
      cases hname
    · rw [if_pos hvarargs] at hreturns
      cases hreturns
  · rintro ⟨hname, hreturns, hparams⟩
    exact ⟨if_neg hname, if_neg (Bool.eq_false_iff.mp hreturns), hparams⟩

theorem methodsViolations_eq_nil : ∀ {methods before : List Method},
    (before.map (·.name)).Nodup → (methodsViolations before methods = [] ↔
      ((before ++ methods).map (·.name)).Nodup ∧ ∀ m ∈ methods, AllowedMethod m)
  | [], before, hbefore => by
    rw [List.append_nil]
    exact iff_of_true rfl ⟨hbefore, nofun⟩
  | m :: rest, before, hbefore => by
    have hadded : m.name ∉ before.map (·.name) ↔ ((before ++ [m]).map (·.name)).Nodup := by
      rw [List.map_append, List.map_singleton, ← List.concat_eq_append, List.nodup_concat]
      exact (and_iff_left hbefore).symm
    rw [methodsViolations, List.append_eq_nil_iff, methodViolations_eq_nil, List.forall_mem_cons,
      List.append_cons before m rest, hadded]
    constructor
    · rintro ⟨⟨hnodup, hm⟩, hrest⟩
      obtain ⟨hall, hrest⟩ := (methodsViolations_eq_nil hnodup).mp hrest
      exact ⟨hall, hm, hrest⟩
    · rintro ⟨hall, hm, hrest⟩
      have hnodup : ((before ++ [m]).map (·.name)).Nodup := by
        rw [List.map_append] at hall
        exact (List.nodup_append.mp hall).1
      exact ⟨⟨hnodup, hm⟩, (methodsViolations_eq_nil hnodup).mpr ⟨hall, hrest⟩⟩

theorem violations_eq_nil {p : Program} : violations p = [] ↔ Allowed p := by
  have hnone : (([] : List Method).map (·.name)).Nodup := List.nodup_nil
  rw [violations, List.append_eq_nil_iff, List.flatMap_eq_nil_iff, methodsViolations_eq_nil hnone,
    List.nil_append]
  have hfield : ∀ f : Field, fieldViolations f = [] ↔ f.isVarargs = false := by
    intro f
    rw [fieldViolations]
    cases f.isVarargs <;> simp
  simp only [hfield]
  constructor
  · rintro ⟨hfields, hdistinct, hmethods⟩
    exact ⟨hfields, hdistinct, hmethods⟩
  · rintro ⟨hfields, hdistinct, hmethods⟩
    exact ⟨hfields, hdistinct, hmethods⟩

/-! ## Tables -/

/-- A table has the fields, the methods and the imports of a program in the order of the source. Under
the name of a method it has that method as it was declared, and under other names none. -/
structure Tabulates (t : SymbolTable) (p : Program) : Prop extends SymbolsOf t p where
  superclass : t.superclass = p.mainClass.superclass
  declared : ∀ m ∈ p.mainClass.methods, t.method? m.name = some {
    name := m.name, returnTy := m.returnTy, params := m.params, locals := m.locals
    isStatic := m.isStatic }
  undeclared : ∀ name, (∀ m ∈ p.mainClass.methods, m.name ≠ name) → t.method? name = none

/-- Where every method has a name of its own the name leads to the method. -/
theorem find?_ofMethod : ∀ {methods : List Method}, (methods.map (·.name)).Nodup → ∀ m ∈ methods,
    (methods.map Signature.ofMethod).find? (·.name == m.name) = some (.ofMethod m)
  | m' :: rest, hnodup, m, hm => by
    rw [List.map_cons, List.nodup_cons] at hnodup
    rw [List.map_cons, List.find?_cons]
    rcases List.mem_cons.mp hm with rfl | hm
    · rw [show (Signature.ofMethod m).name = m.name from rfl, beq_self_eq_true]
    · have hother : m'.name ≠ m.name := by
        intro hname
        rw [hname] at hnodup
        exact hnodup.1 (List.mem_map_of_mem hm)
      rw [show (Signature.ofMethod m').name = m'.name from rfl, beq_false_of_ne hother]
      exact find?_ofMethod hnodup.2 m hm

theorem find?_ofMethod_none {methods : List Method} {name : String}
    (h : ∀ m ∈ methods, m.name ≠ name) :
    (methods.map Signature.ofMethod).find? (·.name == name) = none := by
  rw [List.find?_eq_none, List.forall_mem_map]
  intro m hm hname
  exact h m hm (eq_of_beq hname)

theorem build_superclass {p : Program} {t : SymbolTable} (h : build p = .ok t) :
    t.superclass = p.mainClass.superclass := by
  obtain ⟨fields, _, h⟩ := except_bind h
  obtain ⟨methods, _, h⟩ := except_bind h
  cases h
  rfl

/-- A table is made for the allowed programs and refused to all others for the first thing that is
against the rules. It has all methods, fields and imports of the program in their order, each method
under its own name. -/
theorem build_verdict (p : Program) :
    ((∃ t, build p = .ok t) ↔ Allowed p) ∧
      (∀ e, build p = .error e ↔ (violations p).head? = some e) ∧
      ∀ t, build p = .ok t → Tabulates t p := by
  have hallowed : (∃ t, build p = .ok t) ↔ Allowed p :=
    (build_fails p).succeeds_iff.trans violations_eq_nil
  refine ⟨hallowed, build_fails p, fun t ht => ?_⟩
  have hsymbols := build_symbolsOf ht
  refine ⟨hsymbols, build_superclass ht, fun m hm => ?_, fun name hname => ?_⟩
  · rw [method?, hsymbols.methods]
    exact find?_ofMethod (hallowed.mp ⟨t, ht⟩).distinct m hm
  · rw [method?, hsymbols.methods]
    exact find?_ofMethod_none hname

/-- A method of which only the last parameter takes variable arguments. -/
def countOf : Method where
  name := "count"
  returnTy := .int
  params := [{ name := "of", ty := .int }, .varargs "among" .int]
  locals := [⟨"found", .boolean⟩]

/-- A program with a field under the name of its class, and an entry point. -/
def counting : Program where
  imports := [⟨["io"]⟩, ⟨["java", "util", "List"]⟩]
  mainClass := {
    name := "Tally"
    superclass := some "List"
    fields := [{ name := "Tally", ty := .boolean }]
    methods := [.main "args", countOf] }

theorem build_verdict_counting : Allowed counting ∧ countOf ∈ counting.mainClass.methods ∧
    ∃ t, build counting = .ok t ∧ t.imports = ["io", "java.util.List"] ∧
      t.method? "count" = some (.ofMethod countOf) ∧ t.method? "Tally" = none := by
  have hmem : countOf ∈ counting.mainClass.methods := List.mem_cons_of_mem _ List.mem_cons_self
  have hallowed : Allowed counting := by
    refine ⟨by decide, by decide, List.forall_mem_cons.mpr ⟨⟨rfl, by decide⟩, ?_⟩⟩
    exact List.forall_mem_singleton.mpr ⟨rfl, by decide⟩
  obtain ⟨haccepted, _, htabulates⟩ := build_verdict counting
  obtain ⟨t, ht⟩ := haccepted.mpr hallowed
  have h := htabulates t ht
  exact ⟨hallowed, hmem, t, ht, h.imports, h.declared countOf hmem, h.undeclared "Tally" (by decide)⟩

end SymbolTable

end MiniJava
