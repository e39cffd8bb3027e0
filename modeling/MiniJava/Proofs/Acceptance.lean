import MiniJava.Proofs.Optimizer.Acceptance
import MiniJava.Proofs.Optimizer.Failures

/-!
# Which programs compile

Without the optimizer a program compiles if and only if no report blocks it, all fields that are
initialized start with literals, and there is code for every method. With the optimizer the same
programs compile, as long as they assign numbers and truth values to nothing else, and divide nothing
by zero where it shows.
-/

namespace MiniJava

open Constants (optimizeMethod optimizeProgram optimizeProgram_fails optimizeProgram_symbols)
open Lowering (Step Session LowersTo LoweredClass lowerField lowerMethod lowerProgram)
open Semantics

/-- There is code for a program. -/
structure Compilable (symbols : SymbolTable) (p : Program) : Prop where
  fields : ∀ f ∈ p.mainClass.fields, ∀ e, f.initializer = some e → e.isLiteral
  methods : ∀ d ∈ p.mainClass.methods, Stmt.AllCompile (anyContext symbols d) d.body

variable {options : Options} {symbols : SymbolTable} {p p' : Program}

/-! ## Fields -/

theorem lowerField_accepts {f : Field} :
    (∃ field, lowerField f = .ok field) ↔ ∀ e, f.initializer = some e → e.isLiteral := by
  rw [lowerField]
  cases f.initializer with
  | none => exact ⟨fun _ => by rintro e ⟨⟩, fun _ => ⟨_, rfl⟩⟩
  | some e =>
    cases e with
    | literal value => exact ⟨fun _ e h => by cases h; rfl, fun _ => ⟨_, rfl⟩⟩
    | _ =>
      refine ⟨?_, fun h => by cases h _ rfl⟩
      rintro ⟨field, h⟩
      cases h

theorem lowerFields_accepts : ∀ (fields : List Field),
    Accepts (fun _ => True) (fields.mapM (m := Step) fun f => liftM (lowerField f))
      (∀ f ∈ fields, ∀ e, f.initializer = some e → e.isLiteral)
  | [] => (Accepts.pure _).congr (by simp)
  | f :: rest => by
    rw [List.mapM_cons]
    refine (Accepts.lift_bind fun field _ => (lowerFields_accepts rest).bind (Q := True) fun _ =>
      (Accepts.pure _).congr (by simp)).congr ?_
    rw [List.forall_mem_cons, ← lowerField_accepts]
    simp

/-! ## Methods -/

theorem lowersTo_clean {d : Method} {ir : Ir.Method} (h : LowersTo symbols d ir) :
    Clean ir.instructions ↔ Stmt.AllCompile (anyContext symbols d) d.body := by
  obtain ⟨k, k', h⟩ := h
  rw [← lowerMethod_accepts symbols d k]
  refine ⟨fun hclean => ⟨ir, k', h, hclean⟩, ?_⟩
  rintro ⟨ir', k'', h', hclean⟩
  obtain ⟨rfl, _⟩ := h.unique h'
  exact hclean

theorem lowersTo_clean_all {ds : List Method} {irs : List Ir.Method}
    (h : List.Forall₂ (LowersTo symbols) ds irs) :
    (∀ ir ∈ irs, Clean ir.instructions) ↔
      ∀ d ∈ ds, Stmt.AllCompile (anyContext symbols d) d.body := by
  induction h with
  | nil => simp
  | cons hd _ ih => rw [List.forall_mem_cons, List.forall_mem_cons, lowersTo_clean hd, ih]

theorem session_lowerMethods_succeeds : ∀ {methods : List Method} {s : Session},
    (∀ d ∈ methods, Stmt.AllCompile (anyContext s.symbols d) d.body) →
      ∃ irs s', Gives (Session.lowerMethods methods) s irs s'
  | [], s, _ => ⟨[], s, rfl⟩
  | d :: rest, s, h => by
    rw [List.forall_mem_cons] at h
    obtain ⟨ir, k, hir, _⟩ := (lowerMethod_accepts s.symbols d s.counters).mpr h.1
    have hfirst : Gives (Session.lowerMethod d) s ir { s with counters := k, method := none } := by
      rw [Gives, Lowering.session_lowerMethod_run, show ((lowerMethod s.symbols d).run).run s.counters =
        (.ok ir, k) from hir]
    obtain ⟨irs, s', hrest⟩ :=
      session_lowerMethods_succeeds (s := { s with counters := k, method := none }) h.2
    exact ⟨ir :: irs, s', Gives.bind_iff.mpr ⟨ir, _, hfirst, Gives.bind_iff.mpr ⟨irs, s', hrest, rfl⟩⟩⟩

/-! ## Programs -/

theorem lowerProgram_succeeds (h : Compilable symbols p) : ∃ mod, lowerProgram symbols p = .ok mod := by
  obtain ⟨fields, s, hfields, _⟩ := (lowerFields_accepts p.mainClass.fields { symbols }).mpr h.fields
  obtain ⟨_, rfl⟩ := Lowering.lowerFields_gives hfields
  obtain ⟨irs, s', hmethods⟩ := session_lowerMethods_succeeds (s := { symbols }) h.methods
  have hprogram : Gives (Session.lowerProgram p) { symbols } _ s' :=
    Gives.bind_iff.mpr ⟨fields, _, hfields, Gives.bind_iff.mpr ⟨irs, s', hmethods, rfl⟩⟩
  exact ⟨_, congrArg Prod.fst hprogram⟩

theorem lowerProgram_fields {mod : Ir.Module} (h : lowerProgram symbols p = .ok mod) :
    ∀ f ∈ p.mainClass.fields, ∀ e, f.initializer = some e → e.isLiteral := by
  have hrun : ∃ s', Gives (Session.lowerProgram p) { symbols } mod s' := ⟨_, Prod.ext h rfl⟩
  obtain ⟨s', hrun⟩ := hrun
  obtain ⟨fields, s, hfields, _⟩ := hrun.bind
  exact (lowerFields_accepts p.mainClass.fields { symbols }).mp ⟨fields, s, hfields, trivial⟩

theorem emit_accepts {c : Ir.Class} (h : LoweredClass symbols p c) :
    (∃ units, Compiler.emit options { classes := [c] } = .ok units) ↔
      ∀ d ∈ p.mainClass.methods, Stmt.AllCompile (anyContext symbols d) d.body := by
  have hclean : (∀ ir ∈ c.methods, Clean ir.instructions) ↔
      (Ir.Module.mk [c]).instructions.findSome? (·.refusal?) = none := by
    rw [List.findSome?_eq_none_iff]
    simp only [Ir.Module.instructions, Clean, List.flatMap_singleton, List.mem_flatMap]
    grind
  have hdecided : Decides (fun _ => True)
      (refuse ((Ir.Module.mk [c]).instructions.findSome? (·.refusal?)))
      (Jvm.assemble options { classes := [c] }) := Jvm.assemble_lowered h
  rw [← lowersTo_clean_all h.methods, hclean]
  constructor
  · rintro ⟨units, hemit⟩
    obtain ⟨files, n, hfiles, _⟩ := emit_eq_ok.mp hemit
    obtain ⟨_, hcheck⟩ := hdecided.of_gives trivial hfiles
    cases hfirst : (Ir.Module.mk [c]).instructions.findSome? (·.refusal?) with
    | none => rfl
    | some breach =>
      rw [hfirst] at hcheck
      cases hcheck
  · intro hfirst
    rw [hfirst] at hdecided
    obtain ⟨files, n, hfiles, _⟩ := hdecided.gives rfl trivial
    exact ⟨_, emit_eq_ok.mpr ⟨files, n, hfiles, rfl⟩⟩

/-- Lowering and emission succeed if and only if there is code for a program. -/
theorem lowerProgram_emits : (∃ mod units, lowerProgram symbols p = .ok mod ∧
    Compiler.emit options mod = .ok units) ↔ Compilable symbols p := by
  constructor
  · rintro ⟨mod, units, hlower, hemit⟩
    obtain ⟨c, rfl, hc⟩ := Lowering.lowerProgram_gives hlower
    exact ⟨lowerProgram_fields hlower, (emit_accepts hc).mp ⟨units, hemit⟩⟩
  · intro h
    obtain ⟨mod, hlower⟩ := lowerProgram_succeeds h
    obtain ⟨c, rfl, hc⟩ := Lowering.lowerProgram_gives hlower
    have hemit : ∃ units, Compiler.emit options { classes := [c] } = .ok units :=
      (emit_accepts hc).mpr h.methods
    obtain ⟨units, hemit⟩ := hemit
    exact ⟨_, units, hlower, hemit⟩

/-! ## Compilation with and without the optimizer -/

theorem compile_plain {checked : Checked} :
    (∃ units, Compiler.compile { options with optimize := false } checked = .ok units) ↔
      Diagnostic.gate checked.diagnostics = .ok () ∧ Compilable checked.symbols checked.program := by
  have hemits : (∃ mod units, lowerProgram checked.symbols checked.program = .ok mod ∧
      Compiler.emit { options with optimize := false } mod = .ok units) ↔ _ := lowerProgram_emits
  rw [← hemits]
  constructor
  · rintro ⟨units, h⟩
    obtain ⟨mod, hlower, hemit⟩ := except_bind h
    obtain ⟨_, hgate, hlower⟩ := except_bind hlower
    exact ⟨hgate, mod, units, hlower, hemit⟩
  · rintro ⟨hgate, mod, units, hlower, hemit⟩
    refine ⟨units, ?_⟩
    rw [Compiler.compile, Compiler.lower, hgate]
    show (lowerProgram checked.symbols checked.program >>= Compiler.emit _) = _
    rw [hlower]
    exact hemit

theorem compile_optimizing {checked : Checked}
    (hgate : Diagnostic.gate checked.diagnostics = .ok ()) :
    Compiler.compile { options with optimize := true } checked = (do
      let p ← optimizeProgram checked.program options.maxPasses.toNat
      let mod ← lowerProgram checked.symbols p
      Compiler.emit { options with optimize := true } mod) := by
  rw [Compiler.compile, Compiler.lower, hgate]
  show (optimizeProgram checked.program options.maxPasses.toNat >>= lowerProgram checked.symbols) >>=
    Compiler.emit _ = _
  rw [bind_assoc]

/-- A program assigns numbers and truth values only to variables and fields of such types. A program
whose types are right does (`WellTyped.assignsWords`). -/
def AssignsWords (symbols : SymbolTable) (p : Program) : Prop :=
  ∀ d ∈ p.mainClass.methods, Stmt.AllKeep (anyContext symbols d) (fun _ _ => True)
    (StoresWord (anyContext symbols d)) d.body

theorem optimized_compile {cap : Nat} {ds ds' : List Method}
    (h : List.Forall₂ (fun d d' => optimizeMethod d cap = .ok d') ds ds')
    (hds : ∀ d ∈ ds, AllOptimizable (anyContext symbols d) d.body) :
    ∀ d' ∈ ds', Stmt.AllCompile (anyContext symbols d') d'.body := by
  induction h with
  | nil => exact nofun
  | @cons d d' _ _ hd _ ih =>
    rw [List.forall_mem_cons] at hds
    refine List.forall_mem_cons.mpr ⟨?_, ih hds.2⟩
    rw [anyContext_optimized hd]
    exact (hds.1.optimizeMethod hd).compile

/-- There is code for an optimized program if there is code for the program. -/
theorem Compilable.optimize {cap : Nat} (h : Compilable symbols p) (hwords : AssignsWords symbols p)
    (hp : optimizeProgram p cap = .ok p') : Compilable symbols p' := by
  obtain ⟨methods, rfl, hmethods⟩ := optimizeProgram_gives hp
  exact ⟨h.fields, optimized_compile hmethods fun d hd => ⟨h.methods d hd, hwords d hd⟩⟩

/-- Turning the optimizer on gives a program that compiles one more reason to fail at most: a division
by zero in one of its methods. This holds for all programs that assign numbers and truth values only
to variables and fields of such types. The symbol table of any optimized program is that of the
program. -/
theorem compile_survives_optimizer (p : Program) (options : Options) :
    (∀ diagnostics checked, Checked.ofProgram p diagnostics = .ok checked →
      AssignsWords checked.symbols p →
      (∃ units, Compiler.compile { options with optimize := false } checked = .ok units) →
        (∃ units, Compiler.compile { options with optimize := true } checked = .ok units) ∨
        ∃ d ∈ p.mainClass.methods, Compiler.compile { options with optimize := true } checked =
          .error (.divisionByZero d.name)) ∧
    ∀ cap p', optimizeProgram p cap = .ok p' → SymbolTable.build p' = SymbolTable.build p := by
  refine ⟨fun diagnostics checked hchecked hwords hplain => ?_, fun cap p' => optimizeProgram_symbols⟩
  obtain ⟨symbols, _, hchecked⟩ := except_bind hchecked
  cases hchecked
  obtain ⟨hgate, hcompilable⟩ := compile_plain.mp hplain
  rw [compile_optimizing hgate]
  cases hp : optimizeProgram p options.maxPasses.toNat with
  | error e =>
    obtain ⟨d, hd, rfl⟩ := optimizeProgram_fails hp
    exact .inr ⟨d, hd, rfl⟩
  | ok p' =>
    obtain ⟨mod, units, hlower, hemit⟩ := lowerProgram_emits.mpr (hcompilable.optimize hwords hp)
    refine .inl ⟨units, ?_⟩
    show (lowerProgram symbols p' >>= Compiler.emit _) = _
    rw [hlower]
    exact hemit

/-- A variable that is assigned a number is read: with the optimizer the number is returned, and without
it the value of the variable. -/
theorem compile_survives_optimizer_variable :
    let m : Method := {
      name := "f", returnTy := .int, locals := [{ name := "x", ty := .int }]
      body := [.assign "x" (.literal (.int 2)),
        .ret (some (.binary .add (.var "x") (.literal (.int 1))))] }
    let p : Program := { mainClass := { name := "A", methods := [m] } }
    let symbols : SymbolTable :=
      { className := "A", superclass := none, imports := [], fields := []
        methods := [.ofMethod m] }
    let checked : Checked := { program := p, symbols }
    let options : Options := {}
    Checked.ofProgram p [] = .ok checked ∧ AssignsWords symbols p ∧
      (∃ units, Compiler.compile { options with optimize := false } checked = .ok units) ∧
      ((∃ units, Compiler.compile { options with optimize := true } checked = .ok units) ∨
        ∃ d ∈ p.mainClass.methods, Compiler.compile { options with optimize := true } checked =
          .error (.divisionByZero d.name)) := by
  intro m p symbols checked options
  have hchecked : Checked.ofProgram p [] = .ok checked := rfl
  have hwords : AssignsWords symbols p := by
    refine List.forall_mem_singleton.mpr ⟨⟨fun _ => .inl rfl, trivial⟩, ?_, trivial⟩
    exact ⟨trivial, trivial, trivial, trivial⟩
  have hplain : ∃ units, Compiler.compile { options with optimize := false } checked = .ok units :=
    ⟨_, rfl⟩
  exact ⟨hchecked, hwords, hplain,
    (compile_survives_optimizer p options).1 [] checked hchecked hwords hplain⟩

end MiniJava
