import MiniJava.Proofs.Lowering.Trees
import MiniJava.Proofs.Semantics.Rules

/-!
# The shape of lowered code

How lowered code is put together, as a relation that only looks at instructions, operands and
counters. What is proved about all lowered code goes by induction on it, and only this module and
the next one look at how expressions and statements are lowered to it.

Beside the shape there is the list of what single nodes of a tree contribute. A rule that the nodes
of a method keep to carries over to the instructions through it.
-/

namespace MiniJava.Semantics

open Ir (Operand Instr)
open Lowering

variable {c : Context} {d : Method}

/-! ## Shape -/

/-- The operands that need no code: constants, the variables that the method declares, its receiver
and the names of classes. -/
def Free (c : Context) : Operand → Prop
  | .literal _ | .classRef _ => True
  | .var name ty => c.meaning name = .var ty
  | .receiver className => className = c.symbols.className ∧ c.method.isStatic = false
  | .temp .. => False

/-- An instruction that assigns no temporary, and that nothing jumps to or from. -/
structure IsEffect (i : Instr) : Prop where
  assigns : i.definedVar? = none
  label : i.definedLabel? = none
  target : i.jumpTarget? = none

/-- Code with the operands that hold its results, and the counters before and after it was made. The
code may also read operands that are there from outside. Every instruction beside labels and plain
jumps has a property. -/
inductive Code (c : Context) (Φ : Instr → Prop) :
    List Operand → Counters → List Instr → List Operand → Counters → Prop
  | nil {outer : List Operand} {k : Counters} : Code c Φ outer k [] [] k
  | free {outer : List Operand} {k : Counters} {o : Operand} (ho : Free c o) :
    Code c Φ outer k [] [o] k
  | append {outer os os' : List Operand} {k k₁ k₂ : Counters} {a b : List Instr}
    (ha : Code c Φ outer k a os k₁) (hb : Code c Φ outer k₁ b os' k₂) :
    Code c Φ outer k (a ++ b) (os ++ os') k₂
  | weaken {outer os os' : List Operand} {k k' : Counters} {a : List Instr}
    (h : Code c Φ outer k a os k') (hos : os' ⊆ os) : Code c Φ outer k a os' k'
  /-- A value is computed into a new temporary. -/
  | compute {outer os : List Operand} {k k' : Counters} {a : List Instr} {ty : Ty}
    {value : Ir.Value} (h : Code c Φ outer k a os k')
    (hreads : ∀ o ∈ value.operands, o ∈ os ∨ o ∈ outer ∨ Free c o)
    (hΦ : Φ (.assignVar (.temp k'.temps ty) value)) :
    Code c Φ outer k (a ++ [.assignVar (.temp k'.temps ty) value]) (.temp k'.temps ty :: os)
      { k' with temps := k'.temps + 1 }
  /-- Something is done with the results. -/
  | effect {outer os : List Operand} {k k' : Counters} {a : List Instr} {i : Instr}
    (h : Code c Φ outer k a os k') (hi : IsEffect i)
    (hreads : ∀ o ∈ i.usedOperands, o ∈ os ∨ o ∈ outer ∨ Free c o) (hΦ : Φ i) :
    Code c Φ outer k (a ++ [i]) os k'
  /-- A new array is put into a temporary that is numbered after the code that fills it. -/
  | array {outer os : List Operand} {k k' : Counters} {a : List Instr} {ty : Ty} {value : Ir.Value}
    (hreads : ∀ o ∈ value.operands, Free c o)
    (h : Code c Φ (.temp k'.temps ty :: outer) k a os k')
    (hΦ : Φ (.assignVar (.temp k'.temps ty) value)) :
    Code c Φ outer k (.assignVar (.temp k'.temps ty) value :: a) [.temp k'.temps ty]
      { k' with temps := k'.temps + 1 }
  /-- The right operand of a conjunction is computed only if the left one is true. -/
  | and {outer os os' : List Operand} {k k₁ k₂ : Counters} {a b : List Instr} {test value : Operand}
    (ha : Code c Φ outer k a os k₁) (htest : test ∈ os)
    (hb : Code c Φ outer { temps := k₁.temps + 1, labels := k₁.labels + 1 } b os' k₂)
    (hvalue : value ∈ os')
    (hΦ : ∀ i ∈ [Instr.condGoto (.operand test) (.numbered .andRight k₁.labels),
        .assignVar (.temp k₁.temps .boolean) (.operand (.bool false)),
        .assignVar (.temp k₁.temps .boolean) (.operand value)], Φ i) :
    Code c Φ outer k
      (a ++ [.condGoto (.operand test) (.numbered .andRight k₁.labels),
          .assignVar (.temp k₁.temps .boolean) (.operand (.bool false)),
          .goto (.numbered .andEnd k₁.labels), .label (.numbered .andRight k₁.labels)]
        ++ b ++ [.assignVar (.temp k₁.temps .boolean) (.operand value),
          .label (.numbered .andEnd k₁.labels)])
      [.temp k₁.temps .boolean] k₂
  /-- The right operand of a disjunction is computed only if the left one is false. -/
  | or {outer os os' : List Operand} {k k₁ k₂ : Counters} {a b : List Instr} {test value : Operand}
    (ha : Code c Φ outer k a os k₁) (htest : test ∈ os)
    (hb : Code c Φ outer { temps := k₁.temps + 1, labels := k₁.labels + 1 } b os' k₂)
    (hvalue : value ∈ os')
    (hΦ : ∀ i ∈ [Instr.condGoto (.operand test) (.numbered .orTrue k₁.labels),
        .assignVar (.temp k₁.temps .boolean) (.operand value),
        .assignVar (.temp k₁.temps .boolean) (.operand (.bool true))], Φ i) :
    Code c Φ outer k
      (a ++ [.condGoto (.operand test) (.numbered .orTrue k₁.labels)]
        ++ b ++ [.assignVar (.temp k₁.temps .boolean) (.operand value),
          .goto (.numbered .orEnd k₁.labels), .label (.numbered .orTrue k₁.labels),
          .assignVar (.temp k₁.temps .boolean) (.operand (.bool true)),
          .label (.numbered .orEnd k₁.labels)])
      [.temp k₁.temps .boolean] k₂
  /-- A branch, whose two ways meet unless the second one returns. -/
  | branch {outer os : List Operand} {k k₁ k₂ k₃ : Counters} {test a b : List Instr}
    {value : Ir.Value} {returns : Bool}
    (htest : Code c Φ outer { k with labels := k.labels + 1 } test os k₁)
    (hreads : ∀ o ∈ value.operands, o ∈ os ∨ o ∈ outer ∨ Free c o)
    (hb : Code c Φ outer k₁ b [] k₂) (ha : Code c Φ outer k₂ a [] k₃)
    (hreturns : returns → ∃ o, b.getLast? = some (.ret o))
    (hΦ : Φ (.condGoto value (.numbered .thenBranch k.labels))) :
    Code c Φ outer k
      (test ++ [.condGoto value (.numbered .thenBranch k.labels)] ++ b
        ++ (if returns then [] else [.goto (.numbered .endIf k.labels)])
        ++ [.label (.numbered .thenBranch k.labels)] ++ a
        ++ (if returns then [] else [.label (.numbered .endIf k.labels)]))
      [] k₃
  /-- A loop, its test behind its body. -/
  | loop {outer os : List Operand} {k k₁ k₂ : Counters} {test body : List Instr} {value : Ir.Value}
    (hbody : Code c Φ outer { k with labels := k.labels + 1 } body [] k₁)
    (htest : Code c Φ outer k₁ test os k₂)
    (hreads : ∀ o ∈ value.operands, o ∈ os ∨ o ∈ outer ∨ Free c o)
    (hΦ : Φ (.condGoto value (.numbered .loopBody k.labels))) :
    Code c Φ outer k
      ([.goto (.numbered .loopCondition k.labels), .label (.numbered .loopBody k.labels)] ++ body
        ++ [.label (.numbered .loopCondition k.labels)] ++ test
        ++ [.condGoto value (.numbered .loopBody k.labels)])
      [] k₂

namespace Code

variable {Φ : Instr → Prop} {outer os : List Operand} {k k' : Counters} {code : List Instr}

theorem outer_mono (h : Code c Φ outer k code os k') :
    ∀ {outer' : List Operand}, outer ⊆ outer' → Code c Φ outer' k code os k' := by
  have hread : ∀ {os outer outer' : List Operand} {o : Operand}, outer ⊆ outer' →
      o ∈ os ∨ o ∈ outer ∨ Free c o → o ∈ os ∨ o ∈ outer' ∨ Free c o := by
    rintro os outer outer' o hsub (ho | ho | ho)
    · exact .inl ho
    · exact .inr (.inl (hsub ho))
    · exact .inr (.inr ho)
  induction h with
  | nil => exact fun _ => .nil
  | free ho => exact fun _ => .free ho
  | append _ _ iha ihb => exact fun hsub => .append (iha hsub) (ihb hsub)
  | weaken _ hos ih => exact fun hsub => .weaken (ih hsub) hos
  | compute _ hreads hΦ ih =>
    exact fun hsub => .compute (ih hsub) (fun o ho => hread hsub (hreads o ho)) hΦ
  | effect _ hi hreads hΦ ih =>
    exact fun hsub => .effect (ih hsub) hi (fun o ho => hread hsub (hreads o ho)) hΦ
  | array hreads _ hΦ ih => exact fun hsub => .array hreads (ih (List.cons_subset_cons _ hsub)) hΦ
  | and _ htest _ hvalue hΦ iha ihb => exact fun hsub => .and (iha hsub) htest (ihb hsub) hvalue hΦ
  | or _ htest _ hvalue hΦ iha ihb => exact fun hsub => .or (iha hsub) htest (ihb hsub) hvalue hΦ
  | branch _ hreads _ _ hreturns hΦ ihtest ihb iha =>
    exact fun hsub => .branch (ihtest hsub) (fun o ho => hread hsub (hreads o ho)) (ihb hsub)
      (iha hsub) hreturns hΦ
  | loop _ _ hreads hΦ ihbody ihtest =>
    exact fun hsub => .loop (ihbody hsub) (ihtest hsub) (fun o ho => hread hsub (hreads o ho)) hΦ

theorem all (h : Code c Φ outer k code os k')
    (hlabel : ∀ role n, role ≠ .compareTrue → role ≠ .compareEnd →
      Φ (.label (.numbered role n)) ∧ Φ (.goto (.numbered role n))) :
    ∀ i ∈ code, Φ i := by
  have hskip : ∀ {returns : Bool} {j : Instr}, Φ j → ∀ i ∈ (if returns then [] else [j]), Φ i := by
    rintro (_ | _) j hj i hi
    · rw [List.mem_singleton.mp hi]
      exact hj
    · cases hi
  induction h with
  | nil => exact List.forall_mem_nil _
  | free => exact List.forall_mem_nil _
  | append _ _ iha ihb => exact List.forall_mem_append.mpr ⟨iha, ihb⟩
  | weaken _ _ ih => exact ih
  | compute _ _ hΦ ih | effect _ _ _ hΦ ih =>
    exact List.forall_mem_append.mpr ⟨ih, List.forall_mem_singleton.mpr hΦ⟩
  | array _ _ hΦ ih => exact List.forall_mem_cons.mpr ⟨hΦ, ih⟩
  | and _ _ _ _ hΦ iha ihb =>
    simp only [List.forall_mem_cons, List.not_mem_nil, false_implies, implies_true, and_true] at hΦ
    simp only [List.forall_mem_append, List.forall_mem_cons, List.not_mem_nil, false_implies,
      implies_true, and_true]
    exact ⟨⟨⟨iha, hΦ.1, hΦ.2.1, (hlabel .andEnd _ nofun nofun).2,
      (hlabel .andRight _ nofun nofun).1⟩, ihb⟩, hΦ.2.2, (hlabel .andEnd _ nofun nofun).1⟩
  | or _ _ _ _ hΦ iha ihb =>
    simp only [List.forall_mem_cons, List.not_mem_nil, false_implies, implies_true, and_true] at hΦ
    simp only [List.forall_mem_append, List.forall_mem_cons, List.not_mem_nil, false_implies,
      implies_true, and_true]
    exact ⟨⟨⟨iha, hΦ.1⟩, ihb⟩, hΦ.2.1, (hlabel .orEnd _ nofun nofun).2,
      (hlabel .orTrue _ nofun nofun).1, hΦ.2.2, (hlabel .orEnd _ nofun nofun).1⟩
  | branch _ _ _ _ _ hΦ ihtest ihb iha =>
    have hend := hlabel .endIf
    simp only [List.forall_mem_append, List.forall_mem_singleton]
    exact ⟨⟨⟨⟨⟨⟨ihtest, hΦ⟩, ihb⟩, hskip (hend _ nofun nofun).2⟩,
      (hlabel .thenBranch _ nofun nofun).1⟩, iha⟩, hskip (hend _ nofun nofun).1⟩
  | loop _ _ _ hΦ ihbody ihtest =>
    simp only [List.forall_mem_append, List.forall_mem_cons, List.not_mem_nil, false_implies,
      implies_true, and_true]
    exact ⟨⟨⟨⟨⟨(hlabel .loopCondition _ nofun nofun).2, (hlabel .loopBody _ nofun nofun).1⟩,
      ihbody⟩, (hlabel .loopCondition _ nofun nofun).1⟩, ihtest⟩, hΦ⟩

theorem counters_le (h : Code c Φ outer k code os k') :
    k.temps ≤ k'.temps ∧ k.labels ≤ k'.labels := by
  induction h with
  | nil | free => exact ⟨Nat.le_refl _, Nat.le_refl _⟩
  | append _ _ iha ihb => exact ⟨Nat.le_trans iha.1 ihb.1, Nat.le_trans iha.2 ihb.2⟩
  | weaken _ _ ih | effect _ _ _ _ ih => exact ih
  | compute _ _ _ ih | array _ _ _ ih => exact ⟨Nat.le_succ_of_le ih.1, ih.2⟩
  | and _ _ _ _ _ iha ihb | or _ _ _ _ _ iha ihb =>
    simp only at ihb
    omega
  | branch _ _ _ _ _ _ ihtest ihb iha =>
    simp only at ihtest
    omega
  | loop _ _ _ _ ihbody ihtest =>
    simp only at ihbody
    omega

end Code

end MiniJava.Semantics
