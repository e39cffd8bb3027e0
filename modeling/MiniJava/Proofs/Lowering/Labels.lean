import MiniJava.Proofs.Lowering.Bodies
import MiniJava.Proofs.Paths

/-!
# Labels of lowered code

The labels of lowered code are numbered by constructs, and every construct takes a number that no
other one has. Its labels differ in their roles, and its jumps stay inside its code.
-/

namespace MiniJava

/-- The number of a generated label. -/
def Label.number : Label → Nat
  | .named _ => 0
  | .numbered _ n => n

@[simp] theorem Label.number_numbered (role : LabelRole) (n : Nat) :
    (Label.numbered role n).number = n := rfl

instance : Control Ir.Instr where
  marks? := Ir.Instr.definedLabel?
  jumps? := Ir.Instr.jumpTarget?
  falls
    | .goto _ | .ret _ => false
    | .assign .. | .putField .. | .call _ | .label _ | .condGoto .. => true

namespace Semantics

open Ir (Operand Instr)
open Lowering

variable {c : Context} {d : Method} {Φ : Instr → Prop} {outer os : List Operand} {k k' : Counters}
  {code : List Instr}

/-! ## Labels of instructions -/

@[simp] theorem labelsOf_assignVar (dest : Operand) (value : Ir.Value) (rest : List Instr) :
    labelsOf (.assignVar dest value :: rest) = labelsOf rest := labelsOf_cons _ _

@[simp] theorem labelsOf_condGoto (value : Ir.Value) (l : Label) (rest : List Instr) :
    labelsOf (.condGoto value l :: rest) = labelsOf rest := labelsOf_cons _ _

@[simp] theorem labelsOf_goto (l : Label) (rest : List Instr) :
    labelsOf (.goto l :: rest) = labelsOf rest := labelsOf_cons _ _

@[simp] theorem labelsOf_label (l : Label) (rest : List Instr) :
    labelsOf (Instr.label l :: rest) = l :: labelsOf rest := labelsOf_cons _ _

theorem IsEffect.labelsOf {i : Instr} (hi : IsEffect i) : labelsOf [i] = [] := by
  rw [labelsOf_cons, show Control.marks? i = none from hi.label]
  rfl

@[simp] theorem targetsOf_assignVar (dest : Operand) (value : Ir.Value) (rest : List Instr) :
    targetsOf (.assignVar dest value :: rest) = targetsOf rest := targetsOf_cons _ _

@[simp] theorem targetsOf_condGoto (value : Ir.Value) (l : Label) (rest : List Instr) :
    targetsOf (.condGoto value l :: rest) = l :: targetsOf rest := targetsOf_cons _ _

@[simp] theorem targetsOf_goto (l : Label) (rest : List Instr) :
    targetsOf (Instr.goto l :: rest) = l :: targetsOf rest := targetsOf_cons _ _

@[simp] theorem targetsOf_label (l : Label) (rest : List Instr) :
    targetsOf (Instr.label l :: rest) = targetsOf rest := targetsOf_cons _ _

theorem IsEffect.targetsOf {i : Instr} (hi : IsEffect i) : targetsOf [i] = [] := by
  rw [targetsOf_cons, show Control.jumps? i = none from hi.target]
  rfl

/-! ## Numbers -/

/-- The labels of code have the numbers that were given out for it. -/
theorem Code.label_number (h : Code c Φ outer k code os k') :
    ∀ l ∈ labelsOf code, k.labels ≤ l.number ∧ l.number < k'.labels := by
  induction h with
  | nil | free => exact fun _ h => nomatch h
  | append ha hb iha ihb =>
    have := ha.counters_le
    have := hb.counters_le
    rw [labelsOf_append, List.forall_mem_append]
    exact ⟨fun l hl => by have := iha l hl; omega, fun l hl => by have := ihb l hl; omega⟩
  | weaken _ _ ih => exact ih
  | compute _ _ _ ih =>
    simp only [labelsOf_append, labelsOf_assignVar, labelsOf_nil, List.append_nil]
    exact ih
  | effect _ hi _ _ ih =>
    rw [labelsOf_append, hi.labelsOf, List.append_nil]
    exact ih
  | array _ _ _ ih =>
    rw [labelsOf_assignVar]
    exact ih
  | and ha _ hb _ _ iha ihb | or ha _ hb _ _ iha ihb =>
    have := ha.counters_le
    have := hb.counters_le
    intro l hl
    simp only [labelsOf_append, labelsOf_condGoto, labelsOf_assignVar, labelsOf_goto,
      labelsOf_label, labelsOf_nil, List.mem_append, List.mem_cons, List.not_mem_nil, or_false] at hl ihb
    grind [Label.number_numbered]
  | @branch _ _ k k₁ k₂ k₃ test a b _ returns htest _ hb ha _ _ ihtest ihb iha =>
    have := htest.counters_le
    have := hb.counters_le
    have := ha.counters_le
    intro l hl
    have hskip : labelsOf (if returns then [] else [Instr.goto (.numbered .endIf k.labels)]) = [] := by
      cases returns <;> rfl
    have hjoin : ∀ l ∈ labelsOf (if returns then [] else [Instr.label (.numbered .endIf k.labels)]),
        l.number = k.labels := by
      cases returns
      · exact fun l hl => by rw [List.mem_singleton.mp hl]; rfl
      · exact fun l hl => nomatch hl
    simp only [labelsOf_append, labelsOf_condGoto, labelsOf_label, labelsOf_nil, hskip,
      List.mem_append, List.mem_cons, List.not_mem_nil, or_false] at hl
    grind [Label.number_numbered]
  | loop hbody htest _ _ ihbody ihtest =>
    have := hbody.counters_le
    have := htest.counters_le
    intro l hl
    simp only [labelsOf_append, labelsOf_condGoto, labelsOf_goto, labelsOf_label, labelsOf_nil,
      List.mem_append, List.mem_cons, List.not_mem_nil, or_false] at hl
    grind [Label.number_numbered]

theorem Code.labels_disjoint {outer' os' : List Operand} {k₁ k₂ : Counters} {code' : List Instr}
    (h : Code c Φ outer k code os k') (h' : Code c Φ outer' k₁ code' os' k₂)
    (hle : k'.labels ≤ k₁.labels) : ∀ l ∈ labelsOf code, ∀ l' ∈ labelsOf code', l ≠ l' := by
  rintro l hl _ hl' rfl
  have := h.label_number l hl
  have := h'.label_number l hl'
  omega

theorem Code.labels_nodup (h : Code c Φ outer k code os k') : (labelsOf code).Nodup := by
  induction h with
  | nil | free => exact List.nodup_nil
  | append ha hb iha ihb =>
    rw [labelsOf_append, List.nodup_append]
    exact ⟨iha, ihb, ha.labels_disjoint hb (Nat.le_refl _)⟩
  | weaken _ _ ih => exact ih
  | compute _ _ _ ih =>
    simp only [labelsOf_append, labelsOf_assignVar, labelsOf_nil, List.append_nil]
    exact ih
  | effect _ hi _ _ ih =>
    rw [labelsOf_append, hi.labelsOf, List.append_nil]
    exact ih
  | array _ _ _ ih =>
    rw [labelsOf_assignVar]
    exact ih
  | and ha _ hb _ _ iha ihb | or ha _ hb _ _ iha ihb =>
    have hna := ha.label_number
    have hnb := hb.label_number
    have := ha.counters_le
    simp only [labelsOf_append, labelsOf_condGoto, labelsOf_assignVar, labelsOf_goto,
      labelsOf_label, labelsOf_nil, List.nodup_append, List.nodup_cons, List.nodup_nil]
    grind [Label.number_numbered]
  | @branch _ _ k k₁ k₂ k₃ test a b _ returns htest _ hb ha _ _ ihtest ihb iha =>
    have := htest.counters_le
    have := hb.counters_le
    have := ha.counters_le
    have hntest := htest.label_number
    have hnb := hb.label_number
    have hna := ha.label_number
    cases returns <;>
      simp only [labelsOf_append, labelsOf_condGoto, labelsOf_goto, labelsOf_label, labelsOf_nil,
        List.nodup_append, List.nodup_cons, List.nodup_nil, if_true, if_false,
        Bool.false_eq_true] <;>
      grind [Label.number_numbered]
  | loop hbody htest _ _ ihbody ihtest =>
    have := hbody.counters_le
    have := htest.counters_le
    have hnbody := hbody.label_number
    have hntest := htest.label_number
    simp only [labelsOf_append, labelsOf_condGoto, labelsOf_goto, labelsOf_label, labelsOf_nil,
      List.nodup_append, List.nodup_cons, List.nodup_nil]
    grind [Label.number_numbered]

theorem Code.targets_marked (h : Code c Φ outer k code os k') :
    ∀ l ∈ targetsOf code, l ∈ labelsOf code := by
  induction h with
  | nil | free => exact fun _ h => nomatch h
  | append _ _ iha ihb =>
    simp only [targetsOf_append, labelsOf_append, List.mem_append]
    exact fun l hl => hl.imp (iha l) (ihb l)
  | weaken _ _ ih => exact ih
  | compute _ _ _ ih =>
    simp only [targetsOf_append, targetsOf_assignVar, targetsOf_nil, labelsOf_append,
      labelsOf_assignVar, labelsOf_nil, List.append_nil]
    exact ih
  | effect _ hi _ _ ih =>
    rw [labelsOf_append, targetsOf_append, hi.labelsOf, hi.targetsOf, List.append_nil,
      List.append_nil]
    exact ih
  | array _ _ _ ih =>
    rw [labelsOf_assignVar, targetsOf_assignVar]
    exact ih
  | and _ _ _ _ _ iha ihb | or _ _ _ _ _ iha ihb =>
    intro l hl
    simp only [targetsOf_append, targetsOf_condGoto, targetsOf_assignVar, targetsOf_goto,
      targetsOf_label, targetsOf_nil, List.mem_append, List.mem_cons, List.not_mem_nil, or_false,
      labelsOf_append, labelsOf_condGoto, labelsOf_assignVar, labelsOf_goto,
      labelsOf_label, labelsOf_nil] at hl ⊢
    grind
  | @branch _ _ k _ _ _ _ _ _ _ returns _ _ _ _ _ _ ihtest ihb iha =>
    intro l hl
    cases returns <;>
      simp only [targetsOf_append, targetsOf_condGoto, targetsOf_goto, targetsOf_label,
        targetsOf_nil, List.mem_append, List.mem_cons, List.not_mem_nil, or_false, if_true, if_false,
        Bool.false_eq_true, labelsOf_append, labelsOf_condGoto, labelsOf_goto, labelsOf_label,
        labelsOf_nil] at hl ⊢ <;>
      grind
  | loop _ _ _ _ ihbody ihtest =>
    intro l hl
    simp only [targetsOf_append, targetsOf_condGoto, targetsOf_goto, targetsOf_label,
      targetsOf_nil, List.mem_append, List.mem_cons, List.not_mem_nil, or_false, labelsOf_append,
      labelsOf_condGoto, labelsOf_goto, labelsOf_label, labelsOf_nil] at hl ⊢
    grind

end Semantics

end MiniJava
