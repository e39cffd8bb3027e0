import MiniJava.Constants.Optimizer
import MiniJava.Proofs.Optimizer.Folding
import MiniJava.Proofs.Optimizer.Propagation

/-!
# The optimizer preserves meaning

Rounds of propagation and folding, as many as there may be, leave the outcome of every run of a
method as it is.
-/

namespace MiniJava.Semantics

open Constants

theorem optimizeMethod_signature : ∀ (cap : Nat) {m m' : Method},
    optimizeMethod m cap = .ok m' → Signature.ofMethod m' = .ofMethod m
  | 0, m, m', h => by
    cases h
    rfl
  | cap + 1, m, m', h => by
    obtain ⟨folded, hfold, h⟩ := except_bind h
    have hround := (fold_signature hfold).trans (propagate_signature m)
    split at h
    · exact (optimizeMethod_signature cap h).trans hround
    · cases h
      exact hround

/-- Every round keeps what the runs of the method do, if the literals that may stand for variables suit
them in each body that comes about. -/
theorem optimizeMethod_refines {c : Context} {T : Expr → Literal → Prop} (hT : FoldsTo T)
    (hsuits : Suits c T) {inv : List Stmt → Prop} (hstores : ∀ body, inv body → AllStoresHold T body)
    (hreduce : ∀ body body', inv body → ReducesAll T body body' → inv body') (args : List Value)
    (fuel : Nat) : ∀ (cap : Nat) {m m' : Method}, c.method = .ofMethod m → inv m.body →
      optimizeMethod m cap = .ok m' → (c.run m.body args fuel).Refines (c.run m'.body args fuel)
  | 0, m, m', _, _, h => by
    cases h
    exact .refl _
  | cap + 1, m, m', hc, hinv, h => by
    obtain ⟨folded, hfold, h⟩ := except_bind h
    have hround := (propagate_refines hT.literal hsuits (hstores _ hinv) hc args fuel).trans
      (fold_refines hfold args fuel)
    split at h
    · refine hround.trans (optimizeMethod_refines hT hsuits hstores hreduce args fuel cap ?_
        (round_keeps hT hstores hreduce hinv hfold) h)
      rw [hc, fold_signature hfold, propagate_signature]
    · cases h
      exact hround

/-- An optimized method returns the same value, throws the same exception or runs endlessly as the
method does, with the same heap and the same calls. -/
theorem optimizeMethod_keeps_outcome (classOf : String → String)
    (reply : Heap → Target → String → List Value → Reply) (symbols : SymbolTable) {m m' : Method}
    {cap : Nat} (h : optimizeMethod m cap = .ok m') (self : Value) (args : List Value) (w : World)
    (o : Outcome) (hrun : HasOutcome (sourceRun (typed classOf reply) symbols m self args) w o) :
    HasOutcome (sourceRun (typed classOf reply) symbols m' self args) w o := by
  refine hrun.of_refines fun fuel => ?_
  have hc := optimizeMethod_signature cap h
  rw [sourceRun, sourceRun, hc]
  exact optimizeMethod_refines anyLiteral_foldsTo (typed_suits rfl AnyLiteral)
    (fun body _ => allStoresHold_any body) (fun _ _ _ _ => trivial) args fuel cap rfl trivial h

/-- A method whose two stores are removed and whose return becomes a literal. -/
theorem optimizeMethod_keeps_outcome_removed :
    let m : Method := {
      name := "f", returnTy := .int, locals := [{ name := "x", ty := .int }]
      body := [.assign "x" (.literal (.int 1)),
        .assign "x" (.binary .add (.var "x") (.literal (.int 2))), .ret (some (.var "x"))] }
    let m' : Method := { m with body := [.ret (some (.literal (.int 3)))] }
    let symbols : SymbolTable :=
      { className := "A", superclass := none, imports := [], fields := []
        methods := [.ofMethod m] }
    let platform := typed id fun heap _ _ _ => .returned .null heap
    optimizeMethod m 100 = .ok m' ∧
      HasOutcome (sourceRun platform symbols m' .null []) {} (.returned (some (.int 3)) {}) := by
  intro m m' symbols platform
  have h : optimizeMethod m 100 = .ok m' := by rfl
  refine ⟨h, ?_⟩
  exact optimizeMethod_keeps_outcome id _ symbols h .null [] {} _ ⟨0, by rfl⟩

end MiniJava.Semantics
