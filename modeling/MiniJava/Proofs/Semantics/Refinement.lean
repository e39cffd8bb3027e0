import MiniJava.Proofs.Semantics.Source

/-!
# Refinement of actions

An action refines another one if it does the same wherever the other one is not stuck. For actions
that go on with variables there is a weaker notion, `Simulates`, where the variables of the two sides
only have to be related. Both are kept by the ways in which actions are put together.
-/

namespace MiniJava.Semantics

variable {α β σ τ : Type}

namespace Action

theorem bind_refine {a a' : Action α} {f f' : α → Action β} {w : World}
    (h : (a >>= f) w ≠ .stuck) (ha : a w ≠ .stuck → a' w = a w)
    (hf : ∀ v w', a w = .ok v w' → f v w' ≠ .stuck → f' v w' = f v w') :
    (a' >>= f') w = (a >>= f) w := by
  refine bind_congr_at (ha (bind_ne_stuck h)) fun v w' hv => ?_
  exact hf v w' hv (next_ne_stuck h hv)

/-- The second action does what the first one does, unless the first one is stuck. -/
def Refines (a a' : Action α) : Prop :=
  ∀ w, a w ≠ .stuck → a' w = a w

theorem Refines.refl (a : Action α) : Refines a a :=
  fun _ _ => rfl

theorem Refines.trans {a b c : Action α} (h : Refines a b) (h' : Refines b c) : Refines a c := by
  intro w hw
  have hb := h w hw
  rw [h' w (by rwa [hb]), hb]

theorem Refines.bind {a a' : Action α} {f f' : α → Action β} (ha : Refines a a')
    (hf : ∀ v, Refines (f v) (f' v)) : Refines (a >>= f) (a' >>= f') :=
  fun w hw => bind_refine hw (ha w) fun v w' _ => hf v w'

theorem Refines.stuck (a : Action α) : Refines Action.stuck a :=
  fun _ h => absurd rfl h

end Action

/-! ## Actions that go on -/

/-- The results of two actions that go on with related variables, or end alike. -/
def Corresponds (R : σ → τ → Prop) : Result (Flow σ) → Result (Flow τ) → Prop
  | .ok (.next s) w, r => ∃ t, r = .ok (.next t) w ∧ R s t
  | .ok (.returned value) w, r => r = .ok (.returned value) w
  | .threw e w, r => r = .threw e w
  | .outOfFuel, r => r = .outOfFuel
  | .stuck, _ => True

/-- The second action does what the first one does, unless the first one is stuck, and goes on with
related variables. -/
def Simulates (R : σ → τ → Prop) (a : Action (Flow σ)) (b : Action (Flow τ)) : Prop :=
  ∀ w, Corresponds R (a w) (b w)

namespace Simulates

variable {R : σ → τ → Prop}

theorem next {s : σ} {t : τ} (h : R s t) :
    Simulates R (pure (.next s)) (pure (.next t)) :=
  fun _ => ⟨t, rfl, h⟩

theorem returned (value : Option Value) :
    Simulates R (pure (.returned value)) (pure (.returned value)) :=
  fun _ => rfl

theorem stuck (b : Action (Flow τ)) : Simulates R Action.stuck b :=
  fun _ => trivial

/-- A common first part, which may do less than the one it refines when that one is stuck. The second
parts go together on the values that the first part gives. -/
theorem bind_of {a a' : Action α} {f : α → Action (Flow σ)} {g : α → Action (Flow τ)}
    (ha : Action.Refines a a')
    (hf : ∀ v, (∃ w w', a w = .ok v w') → Simulates R (f v) (g v)) :
    Simulates R (a >>= f) (a' >>= g) := by
  intro w
  rw [Action.bind_apply, Action.bind_apply]
  cases h : a w with
  | stuck => trivial
  | ok v w' =>
    rw [ha w (by rw [h]; nofun), h]
    exact hf v ⟨w, w', h⟩ w'
  | threw e w' =>
    rw [ha w (by rw [h]; nofun), h]
    rfl
  | outOfFuel =>
    rw [ha w (by rw [h]; nofun), h]
    rfl

theorem bind {a a' : Action α} {f : α → Action (Flow σ)} {g : α → Action (Flow τ)}
    (ha : Action.Refines a a') (hf : ∀ v, Simulates R (f v) (g v)) :
    Simulates R (a >>= f) (a' >>= g) :=
  bind_of ha fun v _ => hf v

theorem mono {R' : σ → τ → Prop} {a : Action (Flow σ)} {b : Action (Flow τ)}
    (h : Simulates R a b) (hR : ∀ s t, R s t → R' s t) : Simulates R' a b := by
  intro w
  have hw := h w
  cases ha : a w with
  | ok v w' =>
    cases v with
    | next s =>
      rw [ha] at hw
      obtain ⟨t, ht, hst⟩ := hw
      exact ⟨t, ht, hR s t hst⟩
    | returned value =>
      rw [ha] at hw
      exact hw
  | threw e w' =>
    rw [ha] at hw
    exact hw
  | outOfFuel =>
    rw [ha] at hw
    exact hw
  | stuck => trivial

theorem andThen {σ' τ' : Type} {R' : σ' → τ' → Prop} {a : Action (Flow σ)} {b : Action (Flow τ)}
    {f : σ → Action (Flow σ')} {g : τ → Action (Flow τ')} (h : Simulates R a b)
    (hf : ∀ s t, R s t → Simulates R' (f s) (g t)) :
    Simulates R' (Semantics.andThen a f) (Semantics.andThen b g) := by
  intro w
  have hw := h w
  rw [Semantics.andThen, Semantics.andThen, Action.bind_apply, Action.bind_apply]
  cases ha : a w with
  | ok v w' =>
    cases v with
    | next s =>
      rw [ha] at hw
      obtain ⟨t, ht, hst⟩ := hw
      rw [ht]
      exact hf s t hst w'
    | returned value =>
      rw [ha] at hw
      rw [hw]
      rfl
  | threw e w' =>
    rw [ha] at hw
    rw [hw]
    rfl
  | outOfFuel =>
    rw [ha] at hw
    rw [hw]
    rfl
  | stuck => trivial

/-- A simulation is a refinement once the variables are dropped. -/
theorem bind_refines {a : Action (Flow σ)} {b : Action (Flow τ)} {f : Flow σ → Action α}
    {g : Flow τ → Action α} (h : Simulates R a b)
    (hnext : ∀ s t, R s t → Action.Refines (f (.next s)) (g (.next t)))
    (hreturned : ∀ value, Action.Refines (f (.returned value)) (g (.returned value))) :
    Action.Refines (a >>= f) (b >>= g) := by
  intro w hw
  have hc := h w
  rw [Action.bind_apply] at hw ⊢
  rw [Action.bind_apply]
  cases ha : a w with
  | ok v w' =>
    rw [ha] at hc hw
    cases v with
    | next s =>
      obtain ⟨t, ht, hst⟩ := hc
      rw [ht]
      exact hnext s t hst w' hw
    | returned value =>
      rw [show b w = _ from hc]
      exact hreturned value w' hw
  | threw e w' =>
    rw [ha] at hc
    rw [show b w = _ from hc]
  | outOfFuel =>
    rw [ha] at hc
    rw [show b w = _ from hc]
  | stuck =>
    rw [ha] at hw
    exact absurd rfl hw

theorem iterate {R : Locals → Locals → Prop} {test test' : Locals → Action Bool}
    {body body' : Locals → Action (Flow Locals)}
    (htest : ∀ s t, R s t → Action.Refines (test s) (test' t))
    (hbody : ∀ s t, R s t → Simulates R (body s) (body' t)) (fuel : Nat) :
    ∀ s t, R s t → Simulates R (iterate test body fuel s) (iterate test' body' fuel t) := by
  induction fuel with
  | zero =>
    intro s t _ w
    rfl
  | succ fuel ih =>
    intro s t h
    refine Simulates.bind (htest s t h) fun b => ?_
    cases b with
    | true => exact andThen (hbody s t h) ih
    | false => exact next h

end Simulates

/-- A method run whose statements are simulated keeps its outcome. -/
theorem HasOutcome.of_refines {run run' : Nat → Action (Option Value)} {w : World} {o : Outcome}
    (hrun : ∀ fuel, Action.Refines (run fuel) (run' fuel)) (h : HasOutcome run w o) :
    HasOutcome run' w o := by
  have keep : ∀ {fuel r}, run fuel w = r → r ≠ .stuck → run' fuel w = r := by
    intro fuel r hr hs
    rw [← hr]
    exact hrun fuel w (by rwa [hr])
  cases o with
  | returned value w' =>
    obtain ⟨fuel, hfuel⟩ := h
    exact ⟨fuel, keep hfuel nofun⟩
  | threw e w' =>
    obtain ⟨fuel, hfuel⟩ := h
    exact ⟨fuel, keep hfuel nofun⟩
  | endless => exact fun fuel => keep (h fuel) nofun

end MiniJava.Semantics
