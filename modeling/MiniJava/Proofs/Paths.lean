import Mathlib.Data.List.Nodup
import MiniJava.Label

/-!
# Paths through code

Intermediate code and emitted code move from place to place in the same way: to the next place, or to
a label. A path follows such moves, whatever the values are, and carries a state that each
instruction changes in a fixed way.

What holds along all paths is shown on the text of code. An assertion goes with every label. Code is
verified from one assertion to another if every instruction permits the states at its place and takes
them to the assertions at the places behind it.
-/

namespace MiniJava

/-- How control leaves the instructions of a kind of code. -/
class Control (ι : Type) where
  /-- The label that an instruction marks. -/
  marks? : ι → Option Label
  /-- The label that an instruction may jump to. -/
  jumps? : ι → Option Label
  /-- Whether the next instruction may be the one behind. -/
  falls : ι → Bool

variable {ι σ : Type} [Control ι]

/-! ## Labels -/

/-- The labels that code marks, in their order. -/
def labelsOf (code : List ι) : List Label :=
  code.filterMap Control.marks?

/-- The labels that code may jump to, in their order. -/
def targetsOf (code : List ι) : List Label :=
  code.filterMap Control.jumps?

@[simp] theorem labelsOf_nil : labelsOf ([] : List ι) = [] := rfl

@[simp] theorem labelsOf_append (a b : List ι) : labelsOf (a ++ b) = labelsOf a ++ labelsOf b :=
  List.filterMap_append

theorem labelsOf_cons (i : ι) (rest : List ι) :
    labelsOf (i :: rest) = (Control.marks? i).toList ++ labelsOf rest := by
  rw [labelsOf, List.filterMap_cons]
  cases Control.marks? i <;> rfl

@[simp] theorem targetsOf_nil : targetsOf ([] : List ι) = [] := rfl

@[simp] theorem targetsOf_append (a b : List ι) :
    targetsOf (a ++ b) = targetsOf a ++ targetsOf b :=
  List.filterMap_append

theorem targetsOf_cons (i : ι) (rest : List ι) :
    targetsOf (i :: rest) = (Control.jumps? i).toList ++ targetsOf rest := by
  rw [targetsOf, List.filterMap_cons]
  cases Control.jumps? i <;> rfl

theorem mem_labelsOf {code : List ι} {l : Label} :
    l ∈ labelsOf code ↔ ∃ (n : Nat) (i : ι), code[n]? = some i ∧ Control.marks? i = some l := by
  rw [labelsOf, List.mem_filterMap]
  constructor
  · rintro ⟨i, hi, hl⟩
    obtain ⟨n, hn⟩ := List.mem_iff_getElem?.mp hi
    exact ⟨n, i, hn, hl⟩
  · rintro ⟨n, i, hn, hl⟩
    exact ⟨i, List.mem_of_getElem? hn, hl⟩

/-! ## Paths -/

/-- Where control may go from a place of code. -/
inductive Leads (code : List ι) (n : Nat) : Nat → Prop
  | falls {i : ι} (hi : code[n]? = some i) (h : Control.falls i) : Leads code n (n + 1)
  | jumps {i j : ι} {l : Label} {k : Nat} (hi : code[n]? = some i) (h : Control.jumps? i = some l)
    (hj : code[k]? = some j) (hl : Control.marks? j = some l) : Leads code n k

/-- A path leads to a place with a state. -/
inductive Path (step : ι → σ → σ) (starts : Nat → σ → Prop) (code : List ι) : Nat → σ → Prop
  | start {n : Nat} {s : σ} (h : starts n s) : Path step starts code n s
  | next {n n' : Nat} {i : ι} {s : σ} (h : Path step starts code n s) (hi : code[n]? = some i)
    (hleads : Leads code n n') : Path step starts code n' (step i s)

/-- Paths begin at the first instruction with one state. -/
def FromStart (s : σ) : Nat → σ → Prop := fun n s' => n = 0 ∧ s' = s

theorem Path.map {τ : Type} {step : ι → σ → σ} {step' : ι → τ → τ} {starts : Nat → σ → Prop}
    {starts' : Nat → τ → Prop} {code : List ι} {n : Nat} {s : σ} {g : σ → τ}
    (hstep : ∀ i s, g (step i s) = step' i (g s)) (hstart : ∀ n s, starts n s → starts' n (g s))
    (h : Path step starts code n s) : Path step' starts' code n (g s) := by
  induction h with
  | start h => exact .start (hstart _ _ h)
  | next _ hi hleads ih =>
    rw [hstep]
    exact .next ih hi hleads

/-! ## States in a text -/

/-- The state at a place of a text, where each instruction leaves a state to the one behind it. -/
def stateAt (behind : σ → ι → σ) (s : σ) (code : List ι) (n : Nat) : σ :=
  (code.take n).foldl behind s

omit [Control ι] in
theorem stateAt_succ {behind : σ → ι → σ} {s : σ} {code : List ι} {n : Nat} {i : ι}
    (hi : code[n]? = some i) :
    stateAt behind s code (n + 1) = behind (stateAt behind s code n) i := by
  rw [stateAt, List.take_add_one, hi, List.foldl_append]
  rfl

/-- Every instruction of a text fits the state at its place, and behind the text there is another
state. -/
inductive Scanned (fits : σ → ι → Prop) (behind : σ → ι → σ) : σ → List ι → σ → Prop
  | nil {s : σ} : Scanned fits behind s [] s
  | cons {s t : σ} {i : ι} {rest : List ι} (hi : fits s i)
    (hrest : Scanned fits behind (behind s i) rest t) : Scanned fits behind s (i :: rest) t

namespace Scanned

variable {fits : σ → ι → Prop} {behind : σ → ι → σ} {s t : σ} {code : List ι}

omit [Control ι] in
theorem fits_at (h : Scanned fits behind s code t) {n : Nat} {i : ι} (hi : code[n]? = some i) :
    fits (stateAt behind s code n) i := by
  induction h generalizing n with
  | nil => cases hi
  | cons hfits _ ih =>
    cases n with
    | zero =>
      cases hi
      exact hfits
    | succ n => exact ih hi

omit [Control ι] in
theorem last (h : Scanned fits behind s code t) : stateAt behind s code code.length = t := by
  rw [stateAt, List.take_length]
  induction h with
  | nil => rfl
  | cons _ _ ih => exact ih

/-- Every path meets the state that the text has at a place, if labels have states of their own and
jumps lead to them with these. -/
theorem path {step : ι → σ → σ} {starts : Nat → σ → Prop} {labelState : Label → σ}
    (h : Scanned fits behind s code t)
    (hfalls : ∀ u i, fits u i → Control.falls i → behind u i = step i u)
    (hmarks : ∀ u i l, fits u i → Control.marks? i = some l → u = labelState l)
    (hjumps : ∀ u i l, fits u i → Control.jumps? i = some l → step i u = labelState l)
    (hstart : ∀ n u, starts n u → u = stateAt behind s code n) {n : Nat} {u : σ}
    (hpath : Path step starts code n u) : u = stateAt behind s code n := by
  induction hpath with
  | start h => exact hstart _ _ h
  | next _ hi hleads ih =>
    subst ih
    have hfits := h.fits_at hi
    cases hleads with
    | falls hi' hf =>
      cases hi.symm.trans hi'
      rw [stateAt_succ hi, hfalls _ _ hfits hf]
    | jumps hi' hl hj hl' =>
      cases hi.symm.trans hi'
      rw [hjumps _ _ _ hfits hl, hmarks _ _ _ (h.fits_at hj) hl']

end Scanned

/-! ## Verified code -/

/-- Code that leads from the states of one assertion to those of another one. -/
inductive Verified (step : ι → σ → σ) (permits : ι → σ → Prop) (marks : Label → (σ → Prop) → Prop) :
    (σ → Prop) → List ι → (σ → Prop) → Prop
  | nil {P Q : σ → Prop} (h : ∀ s, P s → Q s) : Verified step permits marks P [] Q
  | cons {P P' Q R : σ → Prop} {i : ι} {rest : List ι} (hpre : ∀ s, P s → P' s)
    (hpermits : ∀ s, P' s → permits i s)
    (hmark : ∀ l, Control.marks? i = some l → marks l P')
    (hjump : ∀ l, Control.jumps? i = some l → ∃ A, marks l A ∧ ∀ s, P' s → A (step i s))
    (hfalls : Control.falls i → ∀ s, P' s → R (step i s))
    (hrest : Verified step permits marks R rest Q) : Verified step permits marks P (i :: rest) Q

namespace Verified

variable {step : ι → σ → σ} {permits : ι → σ → Prop} {marks marks' : Label → (σ → Prop) → Prop}
  {P P' Q R : σ → Prop} {code code' : List ι}

theorem pre (h : Verified step permits marks P' code Q) (hP : ∀ s, P s → P' s) :
    Verified step permits marks P code Q := by
  cases h with
  | nil h => exact .nil fun s hs => h s (hP s hs)
  | cons hpre hpermits hmark hjump hfalls hrest =>
    exact .cons (fun s hs => hpre s (hP s hs)) hpermits hmark hjump hfalls hrest

theorem append (h : Verified step permits marks P code R)
    (h' : Verified step permits marks R code' Q) :
    Verified step permits marks P (code ++ code') Q := by
  induction h with
  | nil h => exact h'.pre h
  | cons hpre hpermits hmark hjump hfalls _ ih =>
    exact .cons hpre hpermits hmark hjump hfalls (ih h')

theorem post (h : Verified step permits marks P code R) (hQ : ∀ s, R s → Q s) :
    Verified step permits marks P code Q := by
  have hboth := h.append (.nil hQ)
  rwa [List.append_nil] at hboth

theorem mono (h : Verified step permits marks P code Q) (hmarks : ∀ l A, marks l A → marks' l A) :
    Verified step permits marks' P code Q := by
  induction h with
  | nil h => exact .nil h
  | cons hpre hpermits hmark hjump hfalls _ ih =>
    refine .cons hpre hpermits (fun l hl => hmarks l _ (hmark l hl)) (fun l hl => ?_) hfalls ih
    obtain ⟨A, hA, hstep⟩ := hjump l hl
    exact ⟨A, hmarks l A hA, hstep⟩

theorem straight {i : ι} (hmark : Control.marks? i = none) (hjump : Control.jumps? i = none)
    (hpermits : ∀ s, P s → permits i s) (hfalls : Control.falls i → ∀ s, P s → Q (step i s)) :
    Verified step permits marks P [i] Q :=
  .cons (fun _ hs => hs) hpermits (fun l hl => by rw [hmark] at hl; cases hl)
    (fun l hl => by rw [hjump] at hl; cases hl) hfalls (.nil fun _ hs => hs)

theorem jump {i : ι} {l : Label} {A : σ → Prop} (hmark : Control.marks? i = none)
    (hjump : Control.jumps? i = some l) (hA : marks l A) (hpermits : ∀ s, P s → permits i s)
    (hstep : ∀ s, P s → A (step i s)) (hfalls : Control.falls i → ∀ s, P s → Q (step i s)) :
    Verified step permits marks P [i] Q := by
  refine .cons (fun _ hs => hs) hpermits (fun l hl => by rw [hmark] at hl; cases hl)
    (fun l' hl => ⟨A, ?_, hstep⟩) hfalls (.nil fun _ hs => hs)
  rw [hjump] at hl
  cases hl
  exact hA

theorem label {i : ι} {l : Label} {A : σ → Prop} (hmark : Control.marks? i = some l)
    (hjump : Control.jumps? i = none) (hA : marks l A) (hpermits : ∀ s, A s → permits i s)
    (hpre : ∀ s, P s → A s) (hstep : ∀ s, A s → Q (step i s)) :
    Verified step permits marks P [i] Q := by
  refine .cons hpre hpermits (fun l' hl => ?_) (fun l hl => by rw [hjump] at hl; cases hl)
    (fun _ => hstep) (.nil fun _ hs => hs)
  rw [hmark] at hl
  cases hl
  exact hA

theorem annotated (h : Verified step permits marks P code Q) :
    ∃ at_ : Nat → σ → Prop, (∀ s, P s → at_ 0 s) ∧ ∀ n i, code[n]? = some i →
      (∀ s, at_ n s → permits i s) ∧ (∀ l, Control.marks? i = some l → marks l (at_ n)) ∧
      (∀ l, Control.jumps? i = some l → ∃ A, marks l A ∧ ∀ s, at_ n s → A (step i s)) ∧
      (Control.falls i → ∀ s, at_ n s → at_ (n + 1) (step i s)) := by
  induction h with
  | @nil P Q _ => exact ⟨fun _ => P, fun s hs => hs, fun n i hi => by cases hi⟩
  | @cons P P' Q R i rest hpre hpermits hmark hjump hfalls _ ih =>
    obtain ⟨at_, hfirst, hat⟩ := ih
    refine ⟨fun n => n.casesOn P' at_, hpre, fun n j hj => ?_⟩
    cases n with
    | zero =>
      cases hj
      exact ⟨hpermits, hmark, hjump, fun h s hs => hfirst _ (hfalls h s hs)⟩
    | succ n => exact hat n j hj

/-- Along every path verified code permits the state of the path, provided that no label has two
assertions. -/
theorem permits_of_path (h : Verified step permits marks P code Q)
    (hmarks : ∀ l A B, marks l A → marks l B → A = B) {start : σ} (hstart : P start) {n : Nat}
    {s : σ} {i : ι} (hpath : Path step (FromStart start) code n s) (hi : code[n]? = some i) :
    permits i s := by
  obtain ⟨at_, hfirst, hat⟩ := h.annotated
  have hall : at_ n s := by
    clear hi i
    induction hpath with
    | start h =>
      obtain ⟨rfl, rfl⟩ := h
      exact hfirst _ hstart
    | @next n n' i s _ hi hleads ih =>
      obtain ⟨_, _, hjump, hfalls⟩ := hat n i hi
      cases hleads with
      | falls hi' hf =>
        cases hi.symm.trans hi'
        exact hfalls hf s ih
      | jumps hi' hl hj hl' =>
        cases hi.symm.trans hi'
        obtain ⟨A, hA, hstep⟩ := hjump _ hl
        have heq := hmarks _ _ _ hA ((hat n' _ hj).2.1 _ hl')
        rw [← heq]
        exact hstep s ih
  exact (hat n i hi).1 s hall

end Verified

/-! ## Assertions in a list -/

/-- The assertions that a list gives to labels. -/
def InList (assertions : List (Label × (σ → Prop))) : Label → (σ → Prop) → Prop :=
  fun l A => (l, A) ∈ assertions

/-- A list gives one assertion to each label, if its labels are distinct. -/
theorem InList.unique {assertions : List (Label × (σ → Prop))}
    (h : (assertions.map (·.1)).Nodup) (l : Label) (A B : σ → Prop)
    (hA : InList assertions l A) (hB : InList assertions l B) : A = B := by
  have heq := List.inj_on_of_nodup_map h hA hB rfl
  exact congrArg Prod.snd heq

end MiniJava
