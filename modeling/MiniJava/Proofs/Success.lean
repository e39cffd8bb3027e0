import MiniJava.Error

/-!
# Successful computations

The passes compute in `Except`, with a state below it where they number things. What is proved about
a result starts from the fact that there is one, so this module takes a successful computation
apart into the successes of its steps.
-/

namespace MiniJava

variable {ε σ α β : Type}

theorem except_bind {x : Except ε α} {f : α → Except ε β} {b : β} (h : x >>= f = .ok b) :
    ∃ a, x = .ok a ∧ f a = .ok b := by
  cases x with
  | error e => cases h
  | ok a => exact ⟨a, rfl, h⟩

/-- A computation with a state gives a result, and goes from one state to another. -/
def Gives (x : ExceptT ε (StateM σ) α) (s : σ) (a : α) (s' : σ) : Prop :=
  (x.run).run s = (.ok a, s')

theorem run_bind (x : ExceptT ε (StateM σ) α) (f : α → ExceptT ε (StateM σ) β) (s : σ) :
    ((x >>= f).run).run s = match (x.run).run s with
      | (.ok a, t) => ((f a).run).run t
      | (.error e, t) => (.error e, t) := by
  show Id.run (StateT.run (x.run >>= ExceptT.bindCont f) s) = _
  rw [StateT.run_bind]
  cases (x.run).run s with
  | mk r t => cases r <;> rfl

namespace Gives

variable {s s' : σ} {a : α} {b : β}

theorem pure_iff {v : α} : Gives (pure v : ExceptT ε (StateM σ) α) s a s' ↔ v = a ∧ s = s' := by
  constructor
  · intro h
    cases h
    exact ⟨rfl, rfl⟩
  · rintro ⟨rfl, rfl⟩
    rfl

theorem bind_iff {x : ExceptT ε (StateM σ) α} {f : α → ExceptT ε (StateM σ) β} :
    Gives (x >>= f) s b s' ↔ ∃ a t, Gives x s a t ∧ Gives (f a) t b s' := by
  constructor
  · intro h
    rw [Gives, run_bind] at h
    cases hx : (x.run).run s with
    | mk r t =>
      rw [hx] at h
      cases r with
      | error e => cases h
      | ok a => exact ⟨a, t, hx, h⟩
  · rintro ⟨a, t, hx, hf⟩
    rw [Gives, run_bind, show (x.run).run s = (.ok a, t) from hx]
    exact hf

theorem bind {x : ExceptT ε (StateM σ) α} {f : α → ExceptT ε (StateM σ) β}
    (h : Gives (x >>= f) s b s') : ∃ a t, Gives x s a t ∧ Gives (f a) t b s' :=
  bind_iff.mp h

theorem throw_iff {e : ε} : Gives (throw e : ExceptT ε (StateM σ) α) s a s' ↔ False :=
  ⟨nofun, False.elim⟩

theorem lift_iff {x : Except ε α} :
    Gives (liftM x : ExceptT ε (StateM σ) α) s a s' ↔ x = .ok a ∧ s = s' := by
  cases x with
  | error e => exact ⟨nofun, nofun⟩
  | ok v =>
    constructor
    · intro h
      cases h
      exact ⟨rfl, rfl⟩
    · rintro ⟨h, rfl⟩
      cases h
      rfl

/-- A part without a state succeeds, and what comes behind it goes on from the same state. -/
theorem lift_bind {x : Except ε α} {f : α → ExceptT ε (StateM σ) β}
    (h : Gives (liftM x >>= f) s b s') : ∃ a, x = .ok a ∧ Gives (f a) s b s' := by
  obtain ⟨a, t, hlift, h⟩ := h.bind
  obtain ⟨hx, rfl⟩ := lift_iff.mp hlift
  exact ⟨a, hx, h⟩

theorem get_iff {t : σ} : Gives (get : ExceptT ε (StateM σ) σ) s t s' ↔ s = t ∧ s = s' := by
  constructor
  · intro h
    cases h
    exact ⟨rfl, rfl⟩
  · rintro ⟨rfl, rfl⟩
    rfl

theorem modify_iff {f : σ → σ} {u : PUnit} :
    Gives (modify f : ExceptT ε (StateM σ) PUnit) s u s' ↔ f s = s' := by
  constructor
  · intro h
    cases h
    rfl
  · rintro rfl
    rfl

theorem of_isOk {x : ExceptT ε (StateM σ) α} (h : ((x.run).run s).1.toBool) :
    ∃ a s', Gives x s a s' := by
  cases hx : (x.run).run s with
  | mk r t =>
    rw [hx] at h
    cases r with
    | error e => cases h
    | ok a => exact ⟨a, t, hx⟩

theorem unique {x : ExceptT ε (StateM σ) α} {a' : α} {t : σ} (h : Gives x s a s')
    (h' : Gives x s a' t) : a = a' ∧ s' = t := by
  rw [Gives] at h h'
  rw [h] at h'
  cases h'
  exact ⟨rfl, rfl⟩

end Gives

end MiniJava
