import MiniJava.Proofs.Optimizer.Failures
import MiniJava.Proofs.Optimizer.Weight

/-!
# The optimizer ends in a fixed point

A round either fails, or leaves the method as it is, or hands a method of less weight to the rest of
the rounds. So with more rounds than the method has weight the optimizer fails or stops by itself,
and a cap does nothing but cut its rounds short.
-/

namespace MiniJava.Constants

variable {m : Method}

/-- A method that neither pass changes, as both report. -/
structure Settled (m : Method) : Prop where
  propagated : propagate m = ⟨m, false⟩
  folded : fold m = .ok ⟨m, false⟩

/-- What a round of the optimizer does to a method. -/
inductive Round (m : Method) : Prop
  | fails (h : ∀ cap, optimizeMethod m (cap + 1) = .error (.divisionByZero m.name))
  | stops (h : Settled m)
  | goesOn (m' : Method) (hweight : m'.weight < m.weight) (hname : m'.name = m.name)
      (h : ∀ cap, optimizeMethod m (cap + 1) = optimizeMethod m' cap)

theorem fold_name {r : Rewrite Method} (h : fold m = .ok r) : r.node.name = m.name := by
  obtain ⟨body, _, h⟩ := except_bind h
  cases h
  rfl

theorem optimizeMethod_succ {r : Rewrite Method} (h : fold (propagate m).node = .ok r) (cap : Nat) :
    optimizeMethod m (cap + 1) =
      if (propagate m).changed || r.changed then optimizeMethod r.node cap else .ok r.node := by
  rw [optimizeMethod, h]
  rfl

theorem round_cases (m : Method) : Round m := by
  cases hfold : fold (propagate m).node with
  | error e =>
    refine .fails fun cap => ?_
    have herror : optimizeMethod m (cap + 1) = .error e := by
      rw [optimizeMethod, hfold]
      rfl
    rw [herror, optimizeMethod_fails _ _ _ herror]
  | ok r =>
    have hpropagated := propagate_shrinks m
    have hfolded := fold_shrinks hfold
    cases hchanged : (propagate m).changed || r.changed with
    | true =>
      refine .goesOn r.node ?_ (fold_name (m := (propagate m).node) hfold) fun cap => ?_
      · have hpart := Rewrite.Shrinks.or_toNat_le (propagate m).changed r.changed
        rw [hchanged, Bool.toNat_true] at hpart
        have := hpropagated.less
        have := hfolded.less
        omega
      · rw [optimizeMethod_succ hfold, hchanged, if_pos rfl]
    | false =>
      obtain ⟨hp, hf⟩ := Bool.or_eq_false_iff.mp hchanged
      have hsame := hpropagated.eq_of_unchanged hp
      rw [hsame] at hfold hfolded
      exact .stops ⟨hsame, hfold.trans (congrArg Except.ok (hfolded.eq_of_unchanged hf))⟩

theorem Settled.optimizeMethod (h : Settled m) : ∀ cap, optimizeMethod m cap = .ok m
  | 0 => rfl
  | cap + 1 => by
    have hfold : fold (propagate m).node = .ok ⟨m, false⟩ := by
      rw [h.propagated]
      exact h.folded
    rw [optimizeMethod_succ hfold, h.propagated]
    rfl

/-- The answer of the optimizer when no cap cuts it short. -/
theorem optimizeMethod_uncapped (m : Method) :
    ∃ answer, (answer = .error (.divisionByZero m.name) ∨ ∃ m', answer = .ok m' ∧ Settled m') ∧
      ∀ cap, m.weight < cap → optimizeMethod m cap = answer := by
  -- A round that goes on takes one from the cap and at least one from the weight.
  induction hn : m.weight using Nat.strongRecOn generalizing m with
  | ind n ih =>
    subst hn
    cases round_cases m with
    | fails h =>
      refine ⟨_, .inl rfl, fun cap hcap => ?_⟩
      obtain ⟨cap, rfl⟩ := Nat.exists_eq_add_one_of_ne_zero (Nat.ne_zero_of_lt hcap)
      exact h cap
    | stops h => exact ⟨_, .inr ⟨m, rfl, h⟩, fun cap _ => h.optimizeMethod cap⟩
    | goesOn m' hweight hname h =>
      obtain ⟨answer, hanswer, hsame⟩ := ih m'.weight hweight m' rfl
      rw [hname] at hanswer
      refine ⟨answer, hanswer, fun cap hcap => ?_⟩
      obtain ⟨cap, rfl⟩ := Nat.exists_eq_add_one_of_ne_zero (Nat.ne_zero_of_lt hcap)
      rw [h cap]
      exact hsame cap (by omega)

/-- Rounds can be run in two goes. -/
theorem optimizeMethod_add (a b : Nat) (m : Method) :
    (optimizeMethod m a >>= fun m' => optimizeMethod m' b) = optimizeMethod m (a + b) := by
  induction a generalizing m with
  | zero =>
    rw [Nat.zero_add]
    rfl
  | succ a ih =>
    rw [Nat.succ_add]
    cases round_cases m with
    | fails h =>
      rw [h, h]
      rfl
    | stops h =>
      rw [h.optimizeMethod, h.optimizeMethod]
      exact h.optimizeMethod b
    | goesOn m' hweight hname h => rw [h, h, ih]

/-- With more rounds than a method has weight the optimizer fails at a division by zero or gives
a method that is settled, the same for every such cap. Running it on what a smaller cap leaves takes
up the rounds where they were cut short. -/
theorem optimizeMethod_fixed_point (m : Method) :
    (∀ cap, m.weight < cap →
      (optimizeMethod m cap = .error (.divisionByZero m.name) ∨
        ∃ m', optimizeMethod m cap = .ok m' ∧ propagate m' = ⟨m', false⟩ ∧
          fold m' = .ok ⟨m', false⟩) ∧
      ∀ cap', m.weight < cap' → optimizeMethod m cap' = optimizeMethod m cap) ∧
    ∀ a b, (optimizeMethod m a >>= fun m' => optimizeMethod m' b) = optimizeMethod m (a + b) := by
  refine ⟨fun cap hcap => ?_, fun a b => optimizeMethod_add a b m⟩
  obtain ⟨answer, hanswer, hsame⟩ := optimizeMethod_uncapped m
  rw [hsame cap hcap]
  refine ⟨hanswer.imp_right ?_, hsame⟩
  rintro ⟨m', hm', hsettled⟩
  exact ⟨m', hm', hsettled.propagated, hsettled.folded⟩

/-- A method that stores a literal and returns whether the variable is small. -/
def storedThenRead : Method where
  name := "small"
  returnTy := .boolean
  locals := [⟨"x", .int⟩]
  body := [.assign "x" (.literal (.int 1)),
    .ret (some (.paren (.binary .lt (.var "x") (.literal (.int 2)))))]

theorem optimizeMethod_fixed_point_small : storedThenRead.weight < 5 ∧
    ∀ cap, storedThenRead.weight < cap → optimizeMethod storedThenRead cap =
      .ok { storedThenRead with body := [.ret (some (.literal (.bool true)))] } := by
  have hweight : storedThenRead.weight < 5 := by decide
  obtain ⟨_, hsame⟩ := (optimizeMethod_fixed_point storedThenRead).1 5 hweight
  exact ⟨hweight, fun cap hcap => (hsame cap hcap).trans rfl⟩

end MiniJava.Constants
