import MiniJava.Proofs.Semantics.Refinement

/-!
# Machines

A machine is given by what it does in one step. `Machine.Computes` says that from some state on it does what
an action does and goes on in a state that fits the value of the action; `Machine.Follows` says the same of
an action of statements, which may also return or run endlessly. Both are put together along the
binds of the action, so that a simulation is proved along the structure of what is simulated.

Where an action runs out of fuel, the machine has to run for as many steps as the fuel allows: that
is what makes endless runs correspond.
-/

namespace MiniJava.Semantics

/-- A machine: from a state it goes on to the next one, or returns. -/
abbrev Machine (σ : Type) : Type :=
  σ → Action (Flow σ)

namespace Machine

variable {σ α β : Type} (M : Machine σ)

/-- Runs a machine for at most the given number of steps. -/
def run : Nat → σ → Action (Option Value)
  | 0, _ => Action.outOfFuel
  | n + 1, s => do
    match ← M s with
    | .next t => run n t
    | .returned value => return value

/-- A number of steps leads from one state and world to another one. -/
inductive Reaches : Nat → σ → World → σ → World → Prop
  | refl (s : σ) (w : World) : Reaches 0 s w s w
  | step {n : Nat} {s t u : σ} {w w' w'' : World} (h : M s w = .ok (.next t) w')
      (hrest : Reaches n t w' u w'') : Reaches (n + 1) s w u w''

variable {M}

theorem Reaches.trans {n k : Nat} {s t u : σ} {w w' w'' : World} (h : M.Reaches n s w t w')
    (h' : M.Reaches k t w' u w'') : M.Reaches (n + k) s w u w'' := by
  induction h with
  | refl => rwa [Nat.zero_add]
  | @step n _ _ _ _ _ _ hstep _ ih =>
    rw [Nat.add_right_comm]
    exact .step hstep (ih h')

theorem run_succ {n : Nat} {s t : σ} {w w' : World} (h : M s w = .ok (.next t) w') :
    M.run (n + 1) s w = M.run n t w' := by
  rw [run, Action.bind_apply, h]

theorem Reaches.run {n : Nat} {s t : σ} {w w' : World} (h : M.Reaches n s w t w') (k : Nat) :
    M.run (n + k) s w = M.run k t w' := by
  induction h with
  | refl => rw [Nat.zero_add]
  | @step n _ _ _ _ _ _ hstep _ ih => rw [Nat.add_right_comm, run_succ hstep, ih]

theorem run_outOfFuel {n : Nat} : ∀ {s : σ} {w : World},
    M.run (n + 1) s w = .outOfFuel → M.run n s w = .outOfFuel := by
  induction n with
  | zero => exact fun _ => rfl
  | succ n ih =>
    intro s w h
    rw [Machine.run, Action.bind_apply] at h ⊢
    cases hs : M s w with
    | ok flow w' =>
      rw [hs] at h
      cases flow with
      | next t => exact ih h
      | returned value => cases h
    | threw e w' =>
      rw [hs] at h
      cases h
    | stuck =>
      rw [hs] at h
      cases h
    | outOfFuel => rfl

theorem run_outOfFuel_le {n k : Nat} {s : σ} {w : World} (h : M.run n s w = .outOfFuel)
    (hk : k ≤ n) : M.run k s w = .outOfFuel := by
  induction hk with
  | refl => exact h
  | step _ ih => exact ih (run_outOfFuel h)

/-- A machine gives a result of an action: it goes on in a state that fits the value, after a least
number of steps, or throws. -/
def Gives (M : Machine σ) (least : Nat) (s : σ) (w : World) (R : α → σ → Prop) : Result α → Prop
  | .ok x w' => ∃ n t, least ≤ n ∧ M.Reaches n s w t w' ∧ R x t
  | .threw e w' => ∃ n, M.run n s w = .threw e w'
  | .stuck | .outOfFuel => True

/-- A machine meets a result of an action of statements. Where that is out of fuel, the machine runs
on for as many steps as the bound says. -/
def Meets (M : Machine σ) (least bound : Nat) (s : σ) (w : World) (R : α → σ → Prop) :
    Result (Flow α) → Prop
  | .ok (.next x) w' => ∃ n t, least ≤ n ∧ M.Reaches n s w t w' ∧ R x t
  | .ok (.returned value) w' => ∃ n, M.run n s w = .ok value w'
  | .threw e w' => ∃ n, M.run n s w = .threw e w'
  | .stuck => True
  | .outOfFuel => M.run bound s w = .outOfFuel

/-- From a state on the machine does what an action does. -/
def Computes (M : Machine σ) (least : Nat) (s : σ) (a : Action α) (R : α → σ → Prop) : Prop :=
  ∀ w, M.Gives least s w R (a w)

/-- From a state on the machine does what an action of statements does. -/
def Follows (M : Machine σ) (least bound : Nat) (s : σ) (a : Action (Flow α)) (R : α → σ → Prop) :
    Prop :=
  ∀ w, M.Meets least bound s w R (a w)

variable {least bound n : Nat} {s t : σ} {w w' : World} {R : α → σ → Prop}

theorem Reaches.gives (h : M.Reaches n s w t w') {later : Nat} (hle : least ≤ n + later)
    {r : Result α} (hr : M.Gives later t w' R r) : M.Gives least s w R r := by
  cases r with
  | ok x w'' =>
    obtain ⟨k, u, hk, hreach, hx⟩ := hr
    exact ⟨n + k, u, Nat.le_trans hle (Nat.add_le_add_left hk n), h.trans hreach, hx⟩
  | threw e w'' =>
    obtain ⟨k, hk⟩ := hr
    exact ⟨n + k, (h.run k).trans hk⟩
  | stuck => trivial
  | outOfFuel => trivial

theorem Reaches.meets (h : M.Reaches n s w t w') (hle : least ≤ n) {k : Nat} (hk : k ≤ n)
    {r : Result (Flow α)} (hr : M.Meets 0 bound t w' R r) : M.Meets least (k + bound) s w R r := by
  cases r with
  | ok flow w'' =>
    cases flow with
    | next x =>
      obtain ⟨j, u, _, hreach, hx⟩ := hr
      exact ⟨n + j, u, Nat.le_add_right_of_le hle, h.trans hreach, hx⟩
    | returned value =>
      obtain ⟨j, hj⟩ := hr
      exact ⟨n + j, (h.run j).trans hj⟩
  | threw e w'' =>
    obtain ⟨j, hj⟩ := hr
    exact ⟨n + j, (h.run j).trans hj⟩
  | stuck => trivial
  | outOfFuel => exact run_outOfFuel_le ((h.run bound).trans hr) (Nat.add_le_add_right hk bound)

/-- The result of an action, and then that of what comes behind it wherever the machine has come. -/
theorem Gives.bind {β : Type} {a : Action α} {f : α → Action β} {R' : β → σ → Prop} {least' : Nat}
    (h : M.Gives least s w R (a w))
    (hf : ∀ n x t w', least ≤ n → M.Reaches n s w t w' → R x t → M.Gives least' s w R' (f x w')) :
    M.Gives least' s w R' ((a >>= f) w) := by
  rw [Action.bind_apply]
  cases ha : a w with
  | ok x w' =>
    rw [ha] at h
    obtain ⟨n, t, hn, hreach, hx⟩ := h
    exact hf n x t w' hn hreach hx
  | threw e w' =>
    rw [ha] at h
    exact h
  | stuck => trivial
  | outOfFuel => trivial

/-- The same for actions of statements, behind which there is something only where they go on. -/
theorem Meets.andThen {β : Type} {a : Action (Flow α)} {f : α → Action (Flow β)} {R' : β → σ → Prop}
    {least' bound' : Nat} (h : M.Meets least bound s w R (a w)) (hb : bound' ≤ bound)
    (hf : ∀ n x t w', a w = .ok (.next x) w' → least ≤ n → M.Reaches n s w t w' → R x t →
      M.Meets least' bound' s w R' (f x w')) :
    M.Meets least' bound' s w R' (andThen a f w) := by
  rw [Semantics.andThen, Action.bind_apply]
  cases ha : a w with
  | ok flow w' =>
    rw [ha] at h
    cases flow with
    | next x =>
      obtain ⟨n, t, hn, hreach, hx⟩ := h
      exact hf n x t w' ha hn hreach hx
    | returned value => exact h
  | threw e w' =>
    rw [ha] at h
    exact h
  | stuck => trivial
  | outOfFuel =>
    rw [ha] at h
    exact run_outOfFuel_le h hb

/-! ## Computing a value -/

namespace Computes

theorem pure {x : α} (h : R x s) : M.Computes 0 s (pure x) R :=
  fun w => ⟨0, s, Nat.le_refl 0, .refl s w, h⟩

theorem stuck : M.Computes least s Action.stuck R :=
  fun _ => trivial

theorem single {a : Action α} {g : α → σ} (hstep : M s = a >>= fun x => Pure.pure (.next (g x)))
    (hR : ∀ x w w', a w = .ok x w' → R x (g x)) : M.Computes 1 s a R := by
  intro w
  cases ha : a w with
  | ok x w' =>
    refine ⟨1, g x, Nat.le_refl 1, .step ?_ (.refl _ _), hR x w w' ha⟩
    rw [hstep, Action.bind_apply, ha]
    rfl
  | threw e w' =>
    refine ⟨1, ?_⟩
    rw [run, hstep, Action.bind_apply, Action.bind_apply, ha]
  | stuck => trivial
  | outOfFuel => trivial

theorem bind {a : Action α} {f : α → Action β} {R' : β → σ → Prop} (h : M.Computes least s a R)
    (hf : ∀ x t, R x t → M.Computes 0 t (f x) R') : M.Computes least s (a >>= f) R' :=
  fun w => (h w).bind fun _ x t w' hn hreach hx => hreach.gives hn (hf x t hx w')

theorem bind_later {a : Action α} {f : α → Action β} {R' : β → σ → Prop}
    (h : M.Computes 0 s a R) (hf : ∀ x t, R x t → M.Computes least t (f x) R') :
    M.Computes least s (a >>= f) R' :=
  fun w => (h w).bind fun n x t w' _ hreach hx =>
    hreach.gives (Nat.le_add_left least n) (hf x t hx w')

theorem mono {a : Action α} {R' : α → σ → Prop} {least' : Nat} (h : M.Computes least s a R)
    (hle : least' ≤ least) (hR : ∀ x t, R x t → R' x t) : M.Computes least' s a R' := by
  intro w
  rw [← bind_pure a]
  exact (h w).bind fun n x t _ hn hreach hx => ⟨n, t, Nat.le_trans hle hn, hreach, hR x t hx⟩

theorem refines {a a' : Action α} (h : M.Computes least s a' R) (ha : Action.Refines a a') :
    M.Computes least s a R := by
  intro w
  have hw := h w
  cases hr : a w with
  | stuck => trivial
  | ok x w' | threw e w' | outOfFuel =>
    rwa [ha w (by rw [hr]; nofun), hr] at hw

theorem step {a : Action α} (hstep : M s = Pure.pure (.next t)) (h : M.Computes 0 t a R) :
    M.Computes 1 s a R := by
  intro w
  have hs : M s w = .ok (.next t) w := by rw [hstep]; rfl
  exact (Reaches.step hs (.refl t w)).gives (Nat.le_refl 1) (h w)

theorem skip {a : Action α} (hstep : M s = Pure.pure (.next t)) (h : M.Computes 0 t a R) :
    M.Computes 0 s a R :=
  (step hstep h).mono (Nat.zero_le 1) fun _ _ hR => hR

theorem then_pure {a : Action α} {R' : α → σ → Prop} (h : M.Computes least s a R)
    (hf : ∀ x t, R x t → M.Computes 0 t (Pure.pure x) R') : M.Computes least s a R' := by
  rw [← bind_pure a]
  exact h.bind hf

theorem follows {a : Action α} {f : α → Action (Flow β)} {R' : β → σ → Prop}
    (h : M.Computes least s a R) (hends : ∀ w, a w ≠ .outOfFuel)
    (hf : ∀ x t, R x t → M.Follows 0 bound t (f x) R') :
    M.Follows least bound s (a >>= f) R' := by
  intro w
  have hw := h w
  rw [Action.bind_apply]
  cases ha : a w with
  | ok x w' =>
    rw [ha] at hw
    obtain ⟨n, t, hn, hreach, hx⟩ := hw
    have hmeets := hreach.meets hn (Nat.zero_le n) (hf x t hx w')
    rwa [Nat.zero_add] at hmeets
  | threw e w' =>
    rw [ha] at hw
    exact hw
  | stuck => trivial
  | outOfFuel => exact absurd ha (hends w)

end Computes

/-! ## Following statements -/

namespace Follows

theorem next {x : α} (h : R x s) : M.Follows 0 bound s (pure (.next x)) R :=
  fun w => ⟨0, s, Nat.le_refl 0, .refl s w, h⟩

theorem stuck : M.Follows least bound s Action.stuck R :=
  fun _ => trivial

theorem outOfFuel : M.Follows least 0 s Action.outOfFuel R :=
  fun _ => rfl

theorem returned {value : Option Value} (hstep : M s = pure (.returned value)) :
    M.Follows least bound s (pure (.returned value)) R := by
  intro w
  refine ⟨1, ?_⟩
  rw [run, hstep]
  rfl

theorem mono {least' bound' : Nat} {R' : α → σ → Prop} {a : Action (Flow α)}
    (h : M.Follows least bound s a R) (hl : least' ≤ least) (hb : bound' ≤ bound)
    (hR : ∀ x t, R x t → R' x t) : M.Follows least' bound' s a R' := by
  intro w
  rw [← andThen_next a]
  exact (h w).andThen hb fun n x t _ _ hn hreach hx =>
    ⟨n, t, Nat.le_trans hl hn, hreach, hR x t hx⟩

theorem step {a : Action (Flow α)} (hstep : M s = pure (.next t))
    (h : M.Follows 0 bound t a R) : M.Follows 1 (bound + 1) s a R := by
  intro w
  have hs : M s w = .ok (.next t) w := by rw [hstep]; rfl
  rw [Nat.add_comm]
  exact (Reaches.step hs (.refl t w)).meets (Nat.le_refl 1) (Nat.le_refl 1) (h w)

theorem andThen {a : Action (Flow α)} {f : α → Action (Flow β)} {R' : β → σ → Prop}
    (h : M.Follows least bound s a R) (hf : ∀ x t, R x t → M.Follows 0 bound t (f x) R') :
    M.Follows least bound s (andThen a f) R' := by
  intro w
  refine (h w).andThen (Nat.le_refl bound) fun n x t w' _ hn hreach hx => ?_
  have hmeets := hreach.meets hn (Nat.zero_le n) (hf x t hx w')
  rwa [Nat.zero_add] at hmeets

theorem skip {a : Action (Flow α)} (hstep : M s = pure (.next t))
    (h : M.Follows 0 bound t a R) : M.Follows 0 bound s a R :=
  (step hstep h).mono (Nat.zero_le 1) (Nat.le_succ bound) fun _ _ hR => hR

theorem then_next {a : Action (Flow α)} {R' : α → σ → Prop} (h : M.Follows least bound s a R)
    (hf : ∀ x t, R x t → M.Follows 0 bound t (pure (.next x)) R') :
    M.Follows least bound s a R' := by
  rw [← andThen_next a]
  exact h.andThen hf

theorem of_returns {a : Action (Flow α)} {R' : α → σ → Prop} (h : M.Follows least bound s a R)
    (ha : ∀ w x w', a w ≠ .ok (.next x) w') : M.Follows least bound s a R' := by
  intro w
  rw [← andThen_next a]
  exact (h w).andThen (Nat.le_refl bound) fun _ x _ w' hw _ _ _ => absurd hw (ha w x w')

end Follows

/-! ## Outcomes -/

/-- What a method gives whose statements have to return. -/
def finish : Flow α → Action (Option Value)
  | .next _ => Action.stuck
  | .returned value => pure value

/-- A machine that follows the statements of a method has the outcomes of the method. -/
theorem keeps_outcome {a : Nat → Action (Flow α)}
    (h : ∀ fuel, M.Follows 0 fuel s (a fuel) fun _ _ => False) {o : Outcome}
    (hrun : HasOutcome (fun fuel => a fuel >>= finish) w o) :
    HasOutcome (fun fuel => M.run fuel s) w o := by
  cases o with
  | returned value w' =>
    obtain ⟨fuel, hfuel⟩ := hrun
    obtain ⟨flow, t, ha, hflow⟩ := Action.bind_eq_ok hfuel
    cases flow with
    | next x => cases hflow
    | returned value' =>
      cases hflow
      have hw := h fuel w
      rw [ha] at hw
      exact hw
  | threw e w' =>
    obtain ⟨fuel, hfuel⟩ := hrun
    have hw := h fuel w
    have hfuel : (a fuel >>= finish) w = .threw e w' := hfuel
    rw [Action.bind_apply] at hfuel
    cases ha : a fuel w with
    | ok flow t =>
      rw [ha] at hfuel
      cases flow <;> cases hfuel
    | threw e' t =>
      rw [ha] at hfuel hw
      cases hfuel
      exact hw
    | stuck | outOfFuel =>
      rw [ha] at hfuel
      cases hfuel
  | endless =>
    intro fuel
    have hw := h fuel w
    have hfuel : (a fuel >>= finish) w = .outOfFuel := hrun fuel
    rw [Action.bind_apply] at hfuel
    cases ha : a fuel w with
    | ok flow t =>
      rw [ha] at hfuel
      cases flow <;> cases hfuel
    | threw e t | stuck =>
      rw [ha] at hfuel
      cases hfuel
    | outOfFuel =>
      rw [ha] at hw
      exact hw

theorem run_stable {n : Nat} : ∀ {s : σ} {w : World},
    M.run n s w ≠ .outOfFuel → M.run (n + 1) s w = M.run n s w := by
  induction n with
  | zero => exact fun h => absurd rfl h
  | succ n ih =>
    intro s w h
    rw [run, Action.bind_apply] at h
    rw [run, run, Action.bind_apply, Action.bind_apply]
    cases hs : M s w with
    | ok flow w' =>
      rw [hs] at h
      cases flow with
      | next t => exact ih h
      | returned value => rfl
    | threw e w' => rfl
    | stuck => rfl
    | outOfFuel => rfl

theorem run_stable_le {n k : Nat} (h : M.run n s w ≠ .outOfFuel) (hk : n ≤ k) :
    M.run k s w = M.run n s w := by
  induction hk with
  | refl => rfl
  | step _ ih => rw [run_stable (by rwa [ih]), ih]

theorem run_unique {n k : Nat} {r r' : Result (Option Value)} (h : M.run n s w = r)
    (h' : M.run k s w = r') (hr : r ≠ .outOfFuel) (hr' : r' ≠ .outOfFuel) : r = r' := by
  subst h h'
  rcases Nat.le_total n k with hle | hle
  · exact (run_stable_le hr hle).symm
  · exact run_stable_le hr' hle

theorem outcome_unique {o o' : Outcome} (h : HasOutcome (fun fuel => M.run fuel s) w o)
    (h' : HasOutcome (fun fuel => M.run fuel s) w o') : o = o' := by
  cases o with
  | returned value w₁ =>
    obtain ⟨n, hn⟩ := h
    cases o' with
    | returned value' w₂ =>
      obtain ⟨k, hk⟩ := h'
      cases run_unique hn hk nofun nofun
      rfl
    | threw e w₂ =>
      obtain ⟨k, hk⟩ := h'
      cases run_unique hn hk nofun nofun
    | endless => cases hn.symm.trans (h' n)
  | threw e w₁ =>
    obtain ⟨n, hn⟩ := h
    cases o' with
    | returned value' w₂ =>
      obtain ⟨k, hk⟩ := h'
      cases run_unique hn hk nofun nofun
    | threw e' w₂ =>
      obtain ⟨k, hk⟩ := h'
      cases run_unique hn hk nofun nofun
      rfl
    | endless => cases hn.symm.trans (h' n)
  | endless =>
    cases o' with
    | returned value' w₂ | threw e w₂ =>
      obtain ⟨k, hk⟩ := h'
      cases hk.symm.trans (h k)
    | endless => rfl

/-! ## Simulations -/

section Simulation

variable {τ : Type} {N : Machine τ} {R' : σ → τ → Prop}

theorem simulates_over (hstep : ∀ s t, R' s t → N.Follows 1 0 t (M s) R') :
    ∀ {n : Nat} {s : σ} {t : τ} {w : World} {r : Result (Option Value)}, R' s t →
      M.run n s w = r → r ≠ .stuck → r ≠ .outOfFuel → ∃ k, N.run k t w = r
  | 0, s, t, w, r, _, hr, _, hfuel => absurd hr.symm hfuel
  | n + 1, s, t, w, r, hR, hr, hstuck, hfuel => by
    have hw := hstep s t hR w
    rw [run, Action.bind_apply] at hr
    cases hs : M s w with
    | ok flow w' =>
      rw [hs] at hr hw
      cases flow with
      | next s' =>
        obtain ⟨k, t', _, hreach, hR'⟩ := hw
        obtain ⟨j, hj⟩ := simulates_over hstep hR' hr hstuck hfuel
        exact ⟨k + j, (hreach.run j).trans hj⟩
      | returned value =>
        obtain ⟨k, hk⟩ := hw
        exact ⟨k, hk.trans hr⟩
    | threw e w' =>
      rw [hs] at hr hw
      obtain ⟨k, hk⟩ := hw
      exact ⟨k, hk.trans hr⟩
    | stuck =>
      rw [hs] at hr
      exact absurd hr.symm hstuck
    | outOfFuel =>
      rw [hs] at hr
      exact absurd hr.symm hfuel

/-- An endless run has an endless counterpart, since every step has one or more. -/
theorem simulates_endless (hstep : ∀ s t, R' s t → N.Follows 1 0 t (M s) R')
    (hends : ∀ s, (M s).Ends) : ∀ {n : Nat} {s : σ} {t : τ} {w : World}, R' s t →
      (∀ k, M.run k s w = .outOfFuel) → N.run n t w = .outOfFuel
  | 0, _, _, _, _, _ => rfl
  | n + 1, s, t, w, hR, hendless => by
    have hw := hstep s t hR w
    have hfirst := hendless 1
    rw [run, Action.bind_apply] at hfirst
    cases hs : M s w with
    | ok flow w' =>
      rw [hs] at hw hfirst
      cases flow with
      | next s' =>
        obtain ⟨k, t', hk, hreach, hR'⟩ := hw
        have hrest : N.run n t' w' = .outOfFuel :=
          simulates_endless hstep hends hR' fun j => (run_succ hs).symm.trans (hendless (j + 1))
        exact run_outOfFuel_le ((hreach.run n).trans hrest) (by omega)
      | returned value => cases hfirst
    | threw e w' | stuck =>
      rw [hs] at hfirst
      cases hfirst
    | outOfFuel => exact absurd hs (hends s w)

/-- A machine that follows every step of another one has its outcomes. -/
theorem simulates_outcome (hstep : ∀ s t, R' s t → N.Follows 1 0 t (M s) R')
    (hends : ∀ s, (M s).Ends) {t : τ} (hR : R' s t) {o : Outcome}
    (h : HasOutcome (fun fuel => M.run fuel s) w o) : HasOutcome (fun fuel => N.run fuel t) w o := by
  cases o with
  | returned value w' =>
    obtain ⟨n, hn⟩ := h
    exact simulates_over hstep hR hn nofun nofun
  | threw e w' =>
    obtain ⟨n, hn⟩ := h
    exact simulates_over hstep hR hn nofun nofun
  | endless => exact fun n => simulates_endless hstep hends hR h

end Simulation

end Machine

end MiniJava.Semantics
