import Mathlib.Data.List.Forall2
import MiniJava.Proofs.Lowering.Layout

/-!
# Lowered programs

A program becomes one class, with a method for each declaration in their order. Under a name the
class has a method if the symbol table has a signature, with the types that the signature says.
-/

namespace MiniJava

/-! ## Symbols -/

/-- A symbol table has the fields and the methods of a program. -/
structure SymbolsOf (symbols : SymbolTable) (p : Program) : Prop where
  className : symbols.className = p.mainClass.name
  imports : symbols.imports = p.imports.map (·.dotted)
  fields : symbols.fields = p.mainClass.fields.map fun f => { name := f.name, ty := f.ty }
  methods : symbols.methods = p.mainClass.methods.map .ofMethod

theorem ofField_eq_ok {f : Field} {var : Variable} (h : SymbolTable.ofField f = .ok var) :
    var = { name := f.name, ty := f.ty } := by
  rw [SymbolTable.ofField] at h
  split at h
  · cases h
  · exact (Except.ok.inj h).symm

theorem except_mapM {ε α β : Type} {f : α → Except ε β} : ∀ {items : List α} {results : List β},
    items.mapM f = .ok results → List.Forall₂ (fun item result => f item = .ok result) items results
  | [], results, h => by
    rw [List.mapM_nil] at h
    cases h
    exact .nil
  | item :: rest, results, h => by
    rw [List.mapM_cons] at h
    obtain ⟨result, hresult, h⟩ := except_bind h
    obtain ⟨more, hmore, h⟩ := except_bind h
    cases h
    exact .cons hresult (except_mapM hmore)

theorem ofFields_eq_ok {fields : List Field} {vars : List Variable}
    (h : fields.mapM SymbolTable.ofField = .ok vars) :
    vars = fields.map fun f => { name := f.name, ty := f.ty } := by
  have hvars := except_mapM h
  clear h
  induction hvars with
  | nil => rfl
  | cons hvar _ ih => rw [List.map_cons, ← ofField_eq_ok hvar, ih]

theorem ofMethod_eq_ok {seen : List String} {m : Method} {s : Signature}
    (h : SymbolTable.ofMethod seen m = .ok s) : s = .ofMethod m := by
  rw [SymbolTable.ofMethod] at h
  split at h
  · cases h
  · split at h
    · cases h
    · split at h
      · cases h
      · exact (Except.ok.inj h).symm

theorem ofMethods_eq_ok : ∀ {methods : List Method} {seen : List String}
    {signatures : List Signature}, SymbolTable.ofMethods seen methods = .ok signatures →
      signatures = methods.map .ofMethod
  | [], seen, signatures, h => (Except.ok.inj h).symm
  | m :: rest, seen, signatures, h => by
    rw [SymbolTable.ofMethods] at h
    obtain ⟨signature, hsignature, h⟩ := except_bind h
    obtain ⟨more, hmore, h⟩ := except_bind h
    rw [← Except.ok.inj h, List.map_cons, ← ofMethod_eq_ok hsignature, ← ofMethods_eq_ok hmore]

theorem build_symbolsOf {p : Program} {symbols : SymbolTable}
    (h : SymbolTable.build p = .ok symbols) : SymbolsOf symbols p := by
  rw [SymbolTable.build] at h
  obtain ⟨fields, hfields, h⟩ := except_bind h
  obtain ⟨methods, hmethods, h⟩ := except_bind h
  cases h
  exact ⟨rfl, rfl, ofFields_eq_ok hfields, ofMethods_eq_ok hmethods⟩

namespace Lowering

variable {symbols : SymbolTable} {p : Program}

/-! ## Sessions -/

theorem session_run_run {α : Type} (code : Lower α) (s : Session) :
    ((Session.run code).run).run s = (((code.run).run s.counters).1,
      { s with counters := ((code.run).run s.counters).2 }) := rfl

/-- A method is lowered with the counters of the session. It is the current one behind the step only
if the step fails. -/
theorem session_lowerMethod_run (m : Method) (s : Session) :
    ((Session.lowerMethod m).run).run s =
      match ((lowerMethod s.symbols m).run).run s.counters with
      | (.ok ir, k) => (.ok ir, { s with counters := k, method := none })
      | (.error e, k) => (.error e, { s with counters := k, method := some m }) := by
  have hlower : ((Session.lowerMethod m).run).run s = ((do
      let method ← Session.run (lowerMethod s.symbols m)
      modify fun s => { s with method := none }
      return method : Step Ir.Method).run).run { s with method := some m } := rfl
  rw [hlower, run_bind, session_run_run]
  cases ((lowerMethod s.symbols m).run).run s.counters with
  | mk r k => cases r <;> rfl

/-- A method of the intermediate code is what lowering gives for a declaration. -/
def LowersTo (symbols : SymbolTable) (d : Method) (ir : Ir.Method) : Prop :=
  ∃ k k', Gives (lowerMethod symbols d) k ir k'

theorem session_lowerMethod_gives {m : Method} {s s' : Session} {ir : Ir.Method}
    (h : Gives (Session.lowerMethod m) s ir s') :
    LowersTo s.symbols m ir ∧ s'.symbols = s.symbols := by
  rw [Gives, session_lowerMethod_run] at h
  cases hrun : ((lowerMethod s.symbols m).run).run s.counters with
  | mk r k =>
    rw [hrun] at h
    cases r with
    | error e => cases h
    | ok ir' =>
      cases h
      exact ⟨⟨_, _, hrun⟩, rfl⟩

theorem session_lowerMethods_gives : ∀ {methods : List Method} {s s' : Session}
    {irs : List Ir.Method}, Gives (Session.lowerMethods methods) s irs s' →
      List.Forall₂ (LowersTo s.symbols) methods irs ∧ s'.symbols = s.symbols
  | [], s, s', irs, h => by
    obtain ⟨rfl, rfl⟩ := Gives.pure_iff.mp h
    exact ⟨.nil, rfl⟩
  | m :: rest, s, s', irs, h => by
    rw [Session.lowerMethods] at h
    obtain ⟨ir, t, hm, h⟩ := h.bind
    obtain ⟨more, t', hrest, h⟩ := h.bind
    obtain ⟨rfl, rfl⟩ := Gives.pure_iff.mp h
    obtain ⟨hir, ht⟩ := session_lowerMethod_gives hm
    obtain ⟨hirs, ht'⟩ := session_lowerMethods_gives hrest
    rw [ht] at hirs ht'
    exact ⟨.cons hir hirs, ht'⟩

/-! ## Fields -/

/-- A field of the intermediate code says what the declaration says. Its initializer, if it has one,
is a literal. -/
structure SameField (f : Field) (field : Ir.Field) : Prop where
  name : field.name = f.name
  ty : field.ty = f.ty
  isStatic : field.isStatic = f.isStatic
  initializer : f.initializer = field.initialValue.map .literal

theorem lowerField_gives {f : Field} {field : Ir.Field} (h : lowerField f = .ok field) :
    SameField f field := by
  rw [lowerField] at h
  split at h <;> cases h
  · next hnone => exact ⟨rfl, rfl, rfl, hnone⟩
  · next value hvalue => exact ⟨rfl, rfl, rfl, hvalue⟩

theorem lowerFields_gives : ∀ {fields : List Field} {s s' : Session} {irs : List Ir.Field},
    Gives (fields.mapM (m := Step) fun f => liftM (lowerField f)) s irs s' →
      List.Forall₂ SameField fields irs ∧ s' = s
  | [], s, s', irs, h => by
    rw [List.mapM_nil] at h
    obtain ⟨rfl, rfl⟩ := Gives.pure_iff.mp h
    exact ⟨.nil, rfl⟩
  | f :: rest, s, s', irs, h => by
    rw [List.mapM_cons] at h
    obtain ⟨field, hf, h⟩ := h.lift_bind
    obtain ⟨more, t, hrest, h⟩ := h.bind
    obtain ⟨rfl, rfl⟩ := Gives.pure_iff.mp h
    obtain ⟨hmore, rfl⟩ := lowerFields_gives hrest
    exact ⟨.cons (lowerField_gives hf) hmore, rfl⟩

/-! ## Programs -/

/-- A class of the intermediate code is what lowering gives for a program. -/
structure LoweredClass (symbols : SymbolTable) (p : Program) (c : Ir.Class) : Prop where
  name : c.name = p.mainClass.name
  superclass : c.superclass = p.mainClass.superclass
  imports : c.imports = symbols.imports
  fields : List.Forall₂ SameField p.mainClass.fields c.fields
  methods : List.Forall₂ (LowersTo symbols) p.mainClass.methods c.methods

theorem session_lowerProgram_gives {s s' : Session} {mod : Ir.Module}
    (h : Gives (Session.lowerProgram p) s mod s') :
    ∃ c, mod = { classes := [c] } ∧ LoweredClass s.symbols p c := by
  rw [Session.lowerProgram] at h
  obtain ⟨fields, _, hfields, h⟩ := h.bind
  obtain ⟨hfields', hs⟩ := lowerFields_gives hfields
  rw [hs] at h
  obtain ⟨irs, t, hmethods, h⟩ := h.bind
  obtain ⟨hmethods, ht⟩ := session_lowerMethods_gives hmethods
  obtain ⟨t', _, hget, h⟩ := h.bind
  obtain ⟨rfl, rfl⟩ := Gives.get_iff.mp hget
  obtain ⟨rfl, rfl⟩ := Gives.pure_iff.mp h
  exact ⟨_, rfl, ⟨rfl, rfl, congrArg SymbolTable.imports ht, hfields', hmethods⟩⟩

theorem lowerProgram_gives {mod : Ir.Module} (h : lowerProgram symbols p = .ok mod) :
    ∃ c, mod = { classes := [c] } ∧ LoweredClass symbols p c := by
  have hrun : ∃ s', Gives (Session.lowerProgram p) { symbols } mod s' := by
    rw [lowerProgram] at h
    exact ⟨_, Prod.ext h rfl⟩
  obtain ⟨s', h⟩ := hrun
  exact session_lowerProgram_gives h

theorem LoweredClass.origin (h : LoweredClass symbols p c) {m : Ir.Method} (hm : m ∈ c.methods) :
    ∃ d ∈ p.mainClass.methods, LowersTo symbols d m := by
  obtain ⟨i, hi, rfl⟩ := List.getElem_of_mem hm
  obtain ⟨hlength, hget⟩ := List.forall₂_iff_get.mp h.methods
  have hi' : i < p.mainClass.methods.length := hlength.symm ▸ hi
  exact ⟨_, List.getElem_mem hi', hget i hi' hi⟩

theorem find_method {ds : List Method} {irs : List Ir.Method} {name : String} {ir : Ir.Method}
    (h : List.Forall₂ (LowersTo symbols) ds irs) (hfind : irs.find? (·.name == name) = some ir) :
    ∃ d, (ds.map Signature.ofMethod).find? (·.name == name) = some (.ofMethod d) ∧
      LowersTo symbols d ir := by
  induction h with
  | nil => cases hfind
  | @cons d ir' ds irs hir _ ih =>
    have hname : ir'.name = d.name := by
      obtain ⟨k, k', hir⟩ := hir
      exact (lowerMethod_gives hir).name
    rw [List.find?_cons, hname] at hfind
    rw [List.map_cons, List.find?_cons, show (Signature.ofMethod d).name = d.name from rfl]
    split at hfind
    · cases hfind
      exact ⟨d, rfl, hir⟩
    · exact ih hfind

/-- Under a name the class has the method that the symbol table has a signature for. -/
theorem LoweredClass.method {c : Ir.Class} (h : LoweredClass symbols p c)
    (hsymbols : SymbolsOf symbols p) {name : String} {ir : Ir.Method}
    (hir : c.method? name = some ir) :
    ∃ d, symbols.method? name = some (.ofMethod d) ∧ LowersTo symbols d ir := by
  rw [SymbolTable.method?, hsymbols.methods]
  exact find_method h.methods hir

end Lowering

end MiniJava
