import MiniJava.Proofs.Lowering.Statements

/-!
# Lowering preserves meaning

The intermediate code of a method has the outcome of every run of its body.
-/

namespace MiniJava.Semantics

open Ir (Operand Instr)
open Lowering

theorem start_agrees {c : Context} {d : Method} {ir : Ir.Method} (hc : c.method = .ofMethod d)
    (hstatic : ir.isStatic = d.isStatic)
    (hparams : ir.params = d.params.map (fun p => { name := p.name, ty := p.ty }))
    (args : List Value) : Agrees c (c.start args) (irStart ir c.self args) where
  named name v hv := by
    have hnames : ir.params.map (·.name) = c.method.params.map (·.name) := by
      rw [hparams, hc, List.map_map]
      rfl
    rw [Context.start] at hv
    by_cases hlocal : (c.method.local? name).isSome
    · rw [if_pos hlocal] at hv
      cases hv
    · rw [if_neg hlocal] at hv
      show argument? (ir.params.map (·.name)) args name = some v
      rw [hnames, hv]
  receiver h := by
    have hir : ir.isStatic = false := by
      rw [hstatic]
      rw [hc] at h
      exact h
    show (if ir.isStatic then none else some c.self) = some c.self
    rw [hir]
    rfl

/-- What the end of a body does. -/
def atEnd (c : Context) (_ : Locals) : Action (Flow Locals) :=
  if c.method.returnTy.isVoid then pure (.returned none) else Action.stuck

/-- What a body does, its end included. -/
def execBody (c : Context) (body : List Stmt) (args : List Value) (fuel : Nat) :
    Action (Flow Locals) :=
  andThen (execAll c fuel body (c.start args)) (atEnd c)

theorem run_eq (c : Context) (body : List Stmt) (args : List Value) (fuel : Nat) :
    c.run body args fuel = execBody c body args fuel >>= Machine.finish := by
  rw [Context.run, execBody, andThen, bind_assoc]
  refine congrArg (execAll c fuel body (c.start args) >>= ·) (funext fun flow => ?_)
  cases flow with
  | returned value => rfl
  | next env =>
    show (if c.method.returnTy.isVoid then pure none else Action.stuck) = atEnd c env >>= _
    rw [atEnd]
    by_cases hvoid : c.method.returnTy.isVoid
    · rw [if_pos hvoid, if_pos hvoid]
      rfl
    · rw [if_neg hvoid, if_neg hvoid]
      rfl

theorem sourceRun_eq (c : Context) {m : Method} (hc : c.method = .ofMethod m) (args : List Value) :
    sourceRun c.platform c.symbols m c.self args =
      fun fuel => execBody c m.body args fuel >>= Machine.finish := by
  funext fuel
  rw [sourceRun, ← hc]
  exact run_eq c m.body args fuel

theorem lowerBody_follows {c : Context} {d : Method} {ir : Ir.Method} {k k' : Counters}
    (hc : c.method = .ofMethod d) (hm : ir.LabelsPlaced) (hreturn : ir.returnTy = d.returnTy)
    (h : Gives (lowerBody c.symbols d) k ir.instructions k') {env : Locals} {vars : Vars}
    (hagree : Agrees c env vars) (fuel : Nat) :
    (irMachine c.platform ir).Follows 0 fuel { pc := 0, vars }
      (andThen (execAll c fuel d.body env) (atEnd c)) fun _ _ => False := by
  have hvoid : c.method.returnTy = d.returnTy := by rw [hc]; rfl
  rw [lowerBody] at h
  obtain ⟨code, k₁, gcode, h⟩ := h.bind
  obtain ⟨hcode, rfl⟩ := Gives.pure_iff.mp h
  have hplaced : Placed ir.instructions 0
      (code ++ if d.returnTy.isVoid && !d.endsWithReturn then [.ret none] else []) := by
    have hself := Placed.self ir.instructions
    by_cases hend : d.returnTy.isVoid && !d.endsWithReturn
    · rw [if_pos hend] at hcode ⊢
      rwa [← hcode] at hself ⊢
    · rw [if_neg hend] at hcode ⊢
      rw [List.append_nil, hcode]
      exact hself
  have hbody := lowerStmts_lowers hc hm hreturn d.body gcode fuel hplaced.left hagree
  by_cases hreturns : d.endsWithReturn
  · have hnever : (irMachine c.platform ir).Follows 0 fuel _ _ fun (_ : Locals) _ => False :=
      hbody.of_returns (execAll_returns c fuel d.body hreturns env)
    exact hnever.andThen fun _ _ h => h.elim
  · refine hbody.andThen fun env' t ht => ?_
    rw [atEnd, hvoid]
    by_cases hv : d.returnTy.isVoid
    · rw [if_pos hv]
      have hret := hplaced.right
      rw [if_pos (by simp [hv, hreturns]), ← ht.pc] at hret
      refine .returned ?_
      rw [irMachine_at hret.head, irInstr]
    · rw [if_neg hv]
      exact .stuck

/-- The intermediate code of a method follows its body from the start. -/
theorem lowerMethod_follows {c : Context} {m : Method} {k k' : Counters} {ir : Ir.Method}
    (hc : c.method = .ofMethod m) (h : Gives (lowerMethod c.symbols m) k ir k') (args : List Value)
    (fuel : Nat) : (irMachine c.platform ir).Follows 0 fuel { pc := 0, vars := irStart ir c.self args }
      (execBody c m.body args fuel) fun _ _ => False := by
  obtain ⟨hbody, hplaced, _, _, hstatic, hreturn, hparams⟩ := lowerMethod_gives h
  exact lowerBody_follows hc hplaced hreturn hbody (start_agrees hc hstatic hparams args) fuel

/-- The intermediate code of a method returns the same value, throws the same exception or runs
endlessly as the body of the method does, with the same heap and the same calls. -/
theorem lowerMethod_keeps_outcome (platform : Platform) (symbols : SymbolTable) {m : Method}
    {k k' : Counters} {ir : Ir.Method} (h : Gives (lowerMethod symbols m) k ir k') (self : Value)
    (args : List Value) (w : World) (o : Outcome)
    (hrun : HasOutcome (sourceRun platform symbols m self args) w o) :
    HasOutcome (irRun platform ir self args) w o := by
  let c : Context := { platform, symbols, method := .ofMethod m, self }
  rw [sourceRun_eq c rfl args] at hrun
  exact Machine.keeps_outcome (lowerMethod_follows (c := c) rfl h args) hrun

/-- A loop that adds up the numbers below its argument. -/
theorem lowerMethod_keeps_outcome_loop :
    let body : List Stmt := [.assign "i" (.literal (.int 0)), .assign "s" (.literal (.int 0)),
      .loop (.binary .lt (.var "i") (.var "n")) (.block [
        .assign "s" (.binary .add (.var "s") (.var "i")),
        .assign "i" (.binary .add (.var "i") (.literal (.int 1)))]),
      .ret (some (.var "s"))]
    let m : Method := {
      name := "f", returnTy := .int, params := [{ name := "n", ty := .int }]
      locals := [{ name := "i", ty := .int }, { name := "s", ty := .int }], body }
    let symbols : SymbolTable :=
      { className := "A", superclass := none, imports := [], fields := []
        methods := [.ofMethod m] }
    let platform := typed id fun heap _ _ _ => .returned .null heap
    ∃ ir k, Gives (lowerMethod symbols m) {} ir k ∧
      HasOutcome (irRun platform ir .null [.int 4]) {} (.returned (some (.int 6)) {}) := by
  intro body m symbols platform
  have h : Gives (lowerMethod symbols m) {} _ _ := rfl
  refine ⟨_, _, h, ?_⟩
  exact lowerMethod_keeps_outcome platform symbols h .null [.int 4] {} _ ⟨5, by rfl⟩

end MiniJava.Semantics
