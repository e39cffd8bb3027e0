import Mathlib.Data.List.Flatten
import MiniJava.Proofs.Emission.Legibility
import MiniJava.Proofs.Lowering.Failures

/-!
# Labels of emitted code

Emitted code has the labels of the intermediate code, and those that emission makes. The made ones
have roles of their own and take numbers that no other code of the same generator has, so that all
labels that are read in the text differ, whatever was emitted before.
-/

namespace MiniJava

instance : Control Jvm.Instr where
  marks?
    | .label l => some l
    | _ => none
  jumps? := Jvm.Instr.jumpTarget?
  falls
    | .goto _ | .ret _ => false
    | _ => true

namespace Jvm

open Ir (Operand Value Call)

variable {f : Frame} {code : List Instr} {n n' : Nat}

/-! ## Labels of instructions -/

theorem marks_of_straight {i : Instr} (h : i.isStraight) : Control.marks? i = none := by
  cases i with
  | label => cases h
  | _ => rfl

theorem jumps_of_straight {i : Instr} (h : i.isStraight) : Control.jumps? i = none := by
  cases i with
  | goto | ifLess | ifTrue => cases h
  | _ => rfl

theorem falls_of_straight {i : Instr} (h : i.isStraight) : Control.falls i := by
  cases i with
  | goto | ret => cases h
  | _ => rfl

theorem marks_of_jump {i : Instr} {l : Label} (h : i.jumpTarget? = some l) :
    Control.marks? i = none := by
  cases i with
  | label => cases h
  | _ => rfl

theorem labelsOf_cons_straight {i : Instr} (h : i.isStraight) (rest : List Instr) :
    labelsOf (i :: rest) = labelsOf rest := by
  rw [labelsOf_cons, marks_of_straight h]
  rfl

theorem targetsOf_cons_straight {i : Instr} (h : i.isStraight) (rest : List Instr) :
    targetsOf (i :: rest) = targetsOf rest := by
  rw [targetsOf_cons, jumps_of_straight h]
  rfl

theorem labelsOf_straight (h : ∀ i ∈ code, i.isStraight) : labelsOf code = [] := by
  induction code with
  | nil => rfl
  | cons i rest ih =>
    rw [List.forall_mem_cons] at h
    rw [labelsOf_cons_straight h.1, ih h.2]

theorem targetsOf_straight (h : ∀ i ∈ code, i.isStraight) : targetsOf code = [] := by
  induction code with
  | nil => rfl
  | cons i rest ih =>
    rw [List.forall_mem_cons] at h
    rw [targetsOf_cons_straight h.1, ih h.2]

/-- The labels that emission makes for one instruction: none, or those of a comparison. -/
inductive Makes : Nat → List Label → Nat → Prop
  | nothing {n : Nat} : Makes n [] n
  | less {n : Nat} : Makes n [.numbered .compareTrue n, .numbered .compareEnd (n + 1)] (n + 2)

theorem loadInstr_straight {o : Operand} {i : Instr} (h : loadInstr f o = .ok i) : i.isStraight :=
  isLoad_straight (loadInstr_isLoad h)

theorem storeInstr_straight {o : Operand} {i : Instr} (h : storeInstr f o = .ok i) :
    i.isStraight := by
  cases o with
  | literal | receiver | classRef => cases h
  | var name ty | temp id ty =>
    obtain ⟨register, _, h⟩ := except_bind h
    cases h
    rfl

/-- Code marks some labels and jumps to others, and jumps to each label that emission made in it. -/
def Controls (marked targets : List Label) (n : Nat) (code : List Instr) (n' : Nat) : Prop :=
  ∃ made, Makes n made n' ∧ labelsOf code = marked ++ made ∧ targetsOf code = made ++ targets

namespace Controls

variable {marked targets : List Label}

theorem straight (h : ∀ i ∈ code, i.isStraight) : Controls [] [] n code n :=
  ⟨[], .nothing, labelsOf_straight h, targetsOf_straight h⟩

theorem prepend {before : List Instr} (h : Controls marked targets n code n')
    (hbefore : ∀ i ∈ before, i.isStraight) : Controls marked targets n (before ++ code) n' := by
  obtain ⟨made, hmakes, hlabels, htargets⟩ := h
  refine ⟨made, hmakes, ?_, ?_⟩
  · rw [labelsOf_append, labelsOf_straight hbefore, List.nil_append, hlabels]
  · rw [targetsOf_append, targetsOf_straight hbefore, List.nil_append, htargets]

theorem append {after : List Instr} (h : Controls marked [] n code n')
    (hafter : labelsOf after = []) : Controls marked (targetsOf after) n (code ++ after) n' := by
  obtain ⟨made, hmakes, hlabels, htargets⟩ := h
  refine ⟨made, hmakes, ?_, ?_⟩
  · rw [labelsOf_append, hafter, List.append_nil, hlabels]
  · rw [targetsOf_append, htargets, List.append_nil]

theorem append_straight {i : Instr} (h : Controls marked [] n code n') (hi : i.isStraight) :
    Controls marked [] n (code ++ [i]) n' := by
  have happend := h.append (labelsOf_cons_straight hi [])
  rwa [targetsOf_cons_straight hi] at happend

end Controls

theorem ValueCode.controls {value : Value} (h : ValueCode f n value code n') :
    Controls [] [] n code n' := by
  cases h with
  | operand hi => exact .straight (List.forall_mem_singleton.mpr (loadInstr_straight hi))
  | @less _ _ i j hi hj =>
    refine ⟨_, .less, ?_, ?_⟩
    · rw [lessCode, labelsOf_cons_straight (loadInstr_straight hi),
        labelsOf_cons_straight (loadInstr_straight hj)]
      rfl
    · rw [lessCode, targetsOf_cons_straight (loadInstr_straight hi),
        targetsOf_cons_straight (loadInstr_straight hj)]
      rfl
  | binary hop hi hj | arrayLoad hi hj =>
    exact .straight (List.forall_mem_cons.mpr ⟨loadInstr_straight hi,
      List.forall_mem_cons.mpr ⟨loadInstr_straight hj, List.forall_mem_singleton.mpr rfl⟩⟩)
  | @not o i hi =>
    have hnegator : (negator f i).isStraight := by
      rw [negator]
      cases f.negation with
      | selfXor => exact loadInstr_straight hi
      | xorOne => rfl
    exact .straight (List.forall_mem_cons.mpr ⟨loadInstr_straight hi,
      List.forall_mem_cons.mpr ⟨hnegator, List.forall_mem_singleton.mpr rfl⟩⟩)
  | getField howner hi =>
    exact .straight (List.forall_mem_cons.mpr ⟨loadInstr_straight hi,
      List.forall_mem_singleton.mpr rfl⟩)
  | call hcall => exact .straight hcall.straight

theorem InstrCode.controls {pending pending' : Option Operand} {i : Ir.Instr}
    (h : InstrCode f n pending i code pending' n') :
    Controls i.definedLabel?.toList i.jumpTarget?.toList n code n' := by
  have hpair : ∀ {i j : Instr}, i.isStraight → j.isStraight → ∀ k ∈ [i, j], k.isStraight :=
    fun hi hj => List.forall_mem_cons.mpr ⟨hi, List.forall_mem_singleton.mpr hj⟩
  cases h with
  | newObject hnew hty hst =>
    exact .straight (List.forall_mem_cons.mpr ⟨rfl, hpair rfl (storeInstr_straight hst)⟩)
  | assignVar hnew hty hvalue hst => exact hvalue.controls.append_straight (storeInstr_straight hst)
  | assignElement hi hj hvalue =>
    exact (hvalue.controls.prepend
      (hpair (loadInstr_straight hi) (loadInstr_straight hj))).append_straight rfl
  | putField howner hi hj =>
    exact (Controls.straight (hpair (loadInstr_straight hi) (loadInstr_straight hj))).append_straight
      rfl
  | @call call _ _ hnew hpending hcall =>
    by_cases hvoid : call.returnTy.isVoid
    · rw [if_pos hvoid, List.append_nil]
      exact .straight hcall.straight
    · rw [if_neg hvoid]
      exact (Controls.straight hcall.straight).append_straight rfl
  | label | goto | retNone => exact ⟨[], .nothing, rfl, rfl⟩
  | condLess hi hj =>
    exact (Controls.straight (hpair (loadInstr_straight hi) (loadInstr_straight hj))).append
      (show labelsOf [Instr.ifLess _] = [] from rfl)
  | condValue hless hvalue => exact hvalue.controls.append rfl
  | ret hi =>
    exact (Controls.straight (List.forall_mem_singleton.mpr (loadInstr_straight hi))).append
      (show labelsOf [Instr.ret _] = [] from rfl)

/-! ## Labels of methods -/

theorem Makes.made {made : List Label} (h : Makes n made n') :
    made.Nodup ∧ n ≤ n' ∧ ∀ l ∈ made, MadeLabel n n' l := by
  cases h with
  | nothing => exact ⟨List.nodup_nil, Nat.le_refl n, nofun⟩
  | less =>
    refine ⟨by simp, Nat.le_add_right n 2, ?_⟩
    simp only [List.forall_mem_cons, List.not_mem_nil, false_implies, implies_true, and_true]
    exact ⟨⟨id, _, n, rfl, Nat.le_refl n, by omega⟩, ⟨id, _, n + 1, rfl, by omega, by omega⟩⟩

theorem MadeLabel.mono {m m' : Nat} {l : Label} (h : MadeLabel n n' l) (hm : m ≤ n)
    (hm' : n' ≤ m') : MadeLabel m m' l := by
  obtain ⟨hplain, role, k, rfl, hk, hk'⟩ := h
  exact ⟨hplain, role, k, rfl, Nat.le_trans hm hk, Nat.lt_of_lt_of_le hk' hm'⟩

theorem MadeLabel.ne {m m' : Nat} {l l' : Label} (h : MadeLabel n n' l) (h' : MadeLabel m m' l')
    (hle : n' ≤ m) : l ≠ l' := by
  rintro rfl
  obtain ⟨_, role, k, rfl, _, hk⟩ := h
  obtain ⟨_, role', k', hlabel, hk', _⟩ := h'
  cases hlabel
  exact absurd hk (Nat.not_lt.mpr (Nat.le_trans hle hk'))

/-- The labels and jumps of the code of a method are those of its instructions, and those that
emission made, each of them once. -/
theorem Layout.controls {pending : Option Operand} {instrs : List Ir.Instr}
    (h : Layout f n pending instrs code n') :
    n ≤ n' ∧ ∃ made, made.Nodup ∧ (∀ l ∈ made, MadeLabel n n' l) ∧
      (labelsOf code).Perm (labelsOf instrs ++ made) ∧
      (targetsOf code).Perm (made ++ targetsOf instrs) := by
  induction h with
  | @nil n pending =>
    have hstraight : ∀ i ∈ (if pending.isSome then [Instr.pop] else []), i.isStraight := by
      cases pending.isSome
      · exact nofun
      · exact List.forall_mem_singleton.mpr rfl
    refine ⟨Nat.le_refl n, [], List.nodup_nil, nofun, ?_, ?_⟩
    · rw [labelsOf_straight hstraight]
      exact .refl _
    · rw [targetsOf_straight hstraight]
      exact .refl _
  | @cons n m last pending _ i rest code more hcode _ ih =>
    obtain ⟨first, hmakes, hlabels, htargets⟩ :=
      hcode.controls.prepend (settleCode_straight pending i)
    obtain ⟨hfirst, hle, hmadeFirst⟩ := hmakes.made
    obtain ⟨hle', made, hnodup, hmade, hl, ht⟩ := ih
    refine ⟨Nat.le_trans hle hle', first ++ made, ?_, ?_, ?_, ?_⟩
    · exact List.nodup_append.mpr ⟨hfirst, hnodup, fun l hl l' hl' =>
        (hmadeFirst l hl).ne (hmade l' hl') (Nat.le_refl m)⟩
    · exact List.forall_mem_append.mpr ⟨fun l hl => (hmadeFirst l hl).mono (Nat.le_refl n) hle',
        fun l hl => (hmade l hl).mono hle (Nat.le_refl last)⟩
    · rw [labelsOf_append, hlabels, labelsOf_cons, List.append_assoc, List.append_assoc]
      refine .append_left _ ((List.Perm.append_left first hl).trans ?_)
      rw [← List.append_assoc, ← List.append_assoc]
      exact .append_right made List.perm_append_comm
    · rw [targetsOf_append, htargets, targetsOf_cons, List.append_assoc, List.append_assoc]
      refine .append_left first ((List.Perm.append_left _ ht).trans ?_)
      rw [← List.append_assoc, ← List.append_assoc]
      exact .append_right _ List.perm_append_comm

theorem Layout.ends {pending : Option Operand} {instrs : List Ir.Instr}
    (h : Layout f n pending instrs code n') {o : Option Operand}
    (hends : instrs.getLast? = some (.ret o)) : ∃ kind, code.getLast? = some (.ret kind) := by
  induction h with
  | nil => cases hends
  | @cons n m last pending pending' i rest code more hcode hrest ih =>
    cases rest with
    | nil =>
      cases hends
      cases hrest
      generalize pending.filter _ = waiting at hcode
      cases hcode with
      | ret hi => exact ⟨returnKind f.method.returnTy, by simp⟩
      | retNone => exact ⟨none, by simp⟩
    | cons j rest =>
      obtain ⟨kind, hkind⟩ := ih (by rwa [List.getLast?_cons_cons] at hends)
      exact ⟨kind, by rw [List.getLast?_append, hkind, Option.some_or]⟩

/-! ## Methods that are emitted in turn -/

/-- Methods that one generator emits in turn, alone or as parts of a module, between two numbers of
labels. The names of their classes can be read. Numbers that were spent on code that came to nothing
are skipped. -/
inductive Emits (options : Options) : Nat → List (Ir.Method × MethodBlock) → Nat → Prop
  | nil {n : Nat} : Emits options n [] n
  | skip {n n' last : Nat} {rest : List (Ir.Method × MethodBlock)} (h : n ≤ n')
    (hrest : Emits options n' rest last) : Emits options n rest last
  | method {n n' last : Nat} {owner : Ir.Class} {m : Ir.Method} {block : MethodBlock}
    {rest : List (Ir.Method × MethodBlock)} (howner : (Resolver.ofClass owner).Legible)
    (h : Gives (assembleMethod options owner m) n block n') (hrest : Emits options n' rest last) :
    Emits options n ((m, block) :: rest) last

theorem Emits.append {options : Options} {entries entries' : List (Ir.Method × MethodBlock)} {last : Nat}
    (h : Emits options n entries n') (h' : Emits options n' entries' last) :
    Emits options n (entries ++ entries') last := by
  induction h with
  | nil => exact h'
  | skip hle _ ih => exact .skip hle (ih h')
  | method howner hm _ ih => exact .method howner hm (ih h')

theorem assembleMethods_emits {options : Options} {owner : Ir.Class}
    (howner : (Resolver.ofClass owner).Legible) :
    ∀ {methods : List Ir.Method} {blocks : List MethodBlock} {n n' : Nat},
      Gives (assembleMethods options owner methods) n blocks n' →
        blocks.length = methods.length ∧ Emits options n (methods.zip blocks) n'
  | [], blocks, n, n', h => by
    obtain ⟨rfl, rfl⟩ := Gives.pure_iff.mp h
    exact ⟨rfl, .nil⟩
  | m :: rest, blocks, n, n', h => by
    rw [assembleMethods] at h
    obtain ⟨block, n₁, hblock, h⟩ := h.bind
    obtain ⟨more, n₂, hmore, h⟩ := h.bind
    obtain ⟨rfl, rfl⟩ := Gives.pure_iff.mp h
    obtain ⟨hlength, hrest⟩ := assembleMethods_emits howner hmore
    exact ⟨congrArg Nat.succ hlength, .method howner hblock hrest⟩

theorem assembleClasses_emits {options : Options} : ∀ {classes : List Ir.Class} {files : List ClassFile}
    {n n' : Nat}, (∀ c ∈ classes, ClassLegible c) → Gives (assembleClasses options classes) n files n' →
      (files.flatMap (·.methods)).length = (classes.flatMap (·.methods)).length ∧
      Emits options n ((classes.flatMap (·.methods)).zip (files.flatMap (·.methods))) n'
  | [], files, n, n', _, h => by
    obtain ⟨rfl, rfl⟩ := Gives.pure_iff.mp h
    exact ⟨rfl, .nil⟩
  | c :: rest, files, n, n', hlegible, h => by
    rw [List.forall_mem_cons] at hlegible
    rw [assembleClasses] at h
    obtain ⟨file, n₁, hfile, h⟩ := h.bind
    obtain ⟨more, n₂, hmore, h⟩ := h.bind
    obtain ⟨rfl, rfl⟩ := Gives.pure_iff.mp h
    rw [assembleClass] at hfile
    obtain ⟨blocks, n₃, hblocks, hfile⟩ := hfile.bind
    obtain ⟨rfl, rfl⟩ := Gives.pure_iff.mp hfile
    obtain ⟨hlength, hmethods⟩ := assembleMethods_emits hlegible.1.resolver hblocks
    obtain ⟨hlength', hrest⟩ := assembleClasses_emits hlegible.2 hmore
    rw [List.flatMap_cons, List.flatMap_cons, List.length_append, List.length_append, hlength',
      List.zip_append hlength.symm]
    exact ⟨congrArg (· + _) hlength, hmethods.append hrest⟩
theorem assemble_emits {options : Options} {mod : Ir.Module} {files : List ClassFile}
    (hlegible : ∀ c ∈ mod.classes, ClassLegible c) (h : Gives (assemble options mod) n files n') :
    (files.flatMap (·.methods)).length = (mod.classes.flatMap (·.methods)).length ∧
      Emits options n ((mod.classes.flatMap (·.methods)).zip (files.flatMap (·.methods))) n' :=
  assembleClasses_emits hlegible h

/-- The labels of all that a generator emits are those of the methods, and those that emission made,
each of them once. -/
theorem Emits.labels {options : Options} {entries : List (Ir.Method × MethodBlock)}
    (h : Emits options n entries n') :
    n ≤ n' ∧ ∃ made, made.Nodup ∧ (∀ l ∈ made, MadeLabel n n' l) ∧
      (entries.flatMap fun e => labelsOf e.2.code).Perm
        ((entries.flatMap fun e => labelsOf e.1.instructions) ++ made) := by
  induction h with
  | nil => exact ⟨Nat.le_refl _, [], List.nodup_nil, nofun, .refl _⟩
  | @skip n n₁ last rest hle _ ih =>
    obtain ⟨hle', made, hnodup, hmade, hlabels⟩ := ih
    exact ⟨Nat.le_trans hle hle', made, hnodup,
      fun l hl => (hmade l hl).mono hle (Nat.le_refl last), hlabels⟩
  | @method n n₁ last owner m block rest _ hm _ ih =>
    obtain ⟨s, hemitted, rfl⟩ := assembleMethod_gives hm
    obtain ⟨hle, first, hfirst, hmadeFirst, hl, _⟩ := hemitted.layout.controls
    obtain ⟨hle', made, hnodup, hmade, hlabels⟩ := ih
    refine ⟨Nat.le_trans hle hle', first ++ made, ?_, ?_, ?_⟩
    · exact List.nodup_append.mpr ⟨hfirst, hnodup, fun l hl l' hl' =>
        (hmadeFirst l hl).ne (hmade l' hl') (Nat.le_refl _)⟩
    · exact List.forall_mem_append.mpr ⟨fun l hl => (hmadeFirst l hl).mono (Nat.le_refl n) hle',
        fun l hl => (hmade l hl).mono hle (Nat.le_refl last)⟩
    · rw [List.flatMap_cons, List.flatMap_cons]
      refine (hl.append hlabels).trans ?_
      rw [List.append_assoc, List.append_assoc]
      refine .append_left _ ?_
      rw [← List.append_assoc, ← List.append_assoc]
      exact .append_right made List.perm_append_comm

theorem Emits.label {options : Options} {entries : List (Ir.Method × MethodBlock)}
    (h : Emits options n entries n') : ∀ e ∈ entries, ∀ l ∈ labelsOf e.2.code,
      l ∈ labelsOf e.1.instructions ∨ MadeLabel n n' l := by
  induction h with
  | nil => exact nofun
  | skip hle _ ih => exact fun e he l hl => (ih e he l hl).imp id (·.mono hle (Nat.le_refl _))
  | @method n n₁ last owner m block rest _ hm hrest ih =>
    obtain ⟨s, hemitted, rfl⟩ := assembleMethod_gives hm
    obtain ⟨hle, made, _, hmade, hlabels, _⟩ := hemitted.layout.controls
    refine List.forall_mem_cons.mpr ⟨fun l hl => ?_, fun e he l hl =>
      (ih e he l hl).imp id (·.mono hle (Nat.le_refl last))⟩
    refine (List.mem_append.mp (hlabels.mem_iff.mp hl)).imp id fun hl => ?_
    exact (hmade l hl).mono (Nat.le_refl n) hrest.labels.1

end Jvm

namespace Semantics

open Ir (Operand)
open Jvm (MethodBlock MethodEmitted Emits MadeLabel PlainLabel assembleMethod assembleMethod_gives
  assemble assemble_emits assembleClasses_each)
open Lowering

variable {symbols : SymbolTable} {d : Method} {k k' : Counters} {code : List Ir.Instr}

/-! ## Labels of lowered methods -/

/-- The labels that lowering makes: each with a role that emission has no use for. -/
def LoweredLabel : Label → Prop
  | .named _ => False
  | .numbered role _ => role ≠ .compareTrue ∧ role ≠ .compareEnd

theorem LoweredLabel.plain {l : Label} (h : LoweredLabel l) : PlainLabel l := by
  cases l with
  | named => exact h.elim
  | numbered role n =>
    cases role with
    | compareTrue => exact h.1 rfl
    | compareEnd => exact h.2 rfl
    | _ => trivial

theorem lowerBody_labels (h : Gives (lowerBody symbols d) k code k') :
    ∀ l ∈ labelsOf code, LoweredLabel l := by
  have hcode : Code (anyContext symbols d) (fun i => ∀ l, i.definedLabel? = some l → LoweredLabel l)
      [] k code [] k' := by
    refine lowerBody_codes rfl (fun hint e i _ hi => ?_) (fun s i _ hi => ?_) (fun _ => nofun)
      (Stmt.allKeep_nothing _ d.body) h
    · cases hi with
      | packed h => cases h <;> exact nofun
      | _ => exact nofun
    · cases hi <;> exact nofun
  have hall := hcode.all fun role n htrue hend => ⟨?_, nofun⟩
  · intro l hl
    obtain ⟨i, hi, hmarks⟩ := List.mem_filterMap.mp hl
    exact hall i hi l hmarks
  · rintro l hl
    cases hl
    exact ⟨htrue, hend⟩

/-- A method that some lowerer gave for a declaration with names that can be read. -/
def IsLowered (ir : Ir.Method) : Prop :=
  ∃ symbols d k k', NamesLegible symbols d ∧ Gives (lowerMethod symbols d) k ir k'

/-- Methods that one lowerer gives in turn, between two states of its counters. Numbers that were
spent elsewhere are skipped. -/
inductive LowersAll (symbols : SymbolTable) : Counters → List Ir.Method → Counters → Prop
  | nil {k : Counters} : LowersAll symbols k [] k
  | skip {k k' last : Counters} {irs : List Ir.Method} (h : k.labels ≤ k'.labels)
    (hrest : LowersAll symbols k' irs last) : LowersAll symbols k irs last
  | method {k k' last : Counters} {d : Method} {ir : Ir.Method} {irs : List Ir.Method}
    (h : Gives (lowerMethod symbols d) k ir k') (hrest : LowersAll symbols k' irs last) :
    LowersAll symbols k (ir :: irs) last

theorem LowersAll.labels {irs : List Ir.Method} (h : LowersAll symbols k irs k') :
    (irs.flatMap fun ir => labelsOf ir.instructions).Nodup ∧
      ∀ l ∈ irs.flatMap fun ir => labelsOf ir.instructions, k.labels ≤ l.number := by
  induction h with
  | nil => exact ⟨List.nodup_nil, nofun⟩
  | skip hle _ ih => exact ⟨ih.1, fun l hl => Nat.le_trans hle (ih.2 l hl)⟩
  | method hm _ ih =>
    have hcode := lowerBody_code (lowerMethod_gives hm).body
    rw [List.flatMap_cons]
    refine ⟨List.nodup_append.mpr ⟨hcode.labels_nodup, ih.1, ?_⟩,
      List.forall_mem_append.mpr ⟨fun l hl => (hcode.label_number l hl).1,
        fun l hl => Nat.le_trans hcode.counters_le.2 (ih.2 l hl)⟩⟩
    rintro l hl _ hl' rfl
    exact absurd (hcode.label_number l hl).2 (Nat.not_lt.mpr (ih.2 l hl'))

/-! ## Labels in the text -/

/-- All labels differ, every branch is to one of them, behind every label there is an instruction, and
the last instruction is a return. -/
structure WellLabelled (code : List Jvm.Instr) : Prop where
  distinct : (labelsOf code).Nodup
  targets : ∀ l ∈ targetsOf code, l ∈ labelsOf code
  followed : ∀ (n : Nat) (l : Label), code[n]? = some (.label l) →
    ∃ (n' : Nat) (i : Jvm.Instr), n < n' ∧ code[n']? = some i ∧ Control.marks? i = none
  ends : ∃ kind, code.getLast? = some (.ret kind)

/-- The labels of the methods in a text. -/
def labelsIn (text : String) : List Label :=
  ((Jvm.readMethods text).getD []).flatMap fun b => labelsOf b.code

theorem labelsIn_method {block : MethodBlock} (h : block.Legible) :
    labelsIn block.text = labelsOf block.code := by
  rw [labelsIn, Jvm.readMethods_method h, Option.getD_some, List.flatMap_singleton]

theorem IsLowered.labels {ir : Ir.Method} (h : IsLowered ir) :
    ∀ l ∈ labelsOf ir.instructions, LoweredLabel l := by
  obtain ⟨symbols, d, k, k', _, h⟩ := h
  exact lowerBody_labels (lowerMethod_gives h).body

theorem IsLowered.legible {ir : Ir.Method} (h : IsLowered ir) :
    Jvm.Legible ir.name ∧ ∀ i ∈ ir.instructions, i.Legible := by
  obtain ⟨symbols, d, k, k', hnames, h⟩ := h
  exact lowered_legible hnames h

theorem nodup_append_made {labels made : List Label} {n n' : Nat} (hlabels : labels.Nodup)
    (hlowered : ∀ l ∈ labels, LoweredLabel l) (hmade : made.Nodup)
    (hmakes : ∀ l ∈ made, MadeLabel n n' l) : (labels ++ made).Nodup := by
  refine List.nodup_append.mpr ⟨hlabels, hmade, ?_⟩
  rintro l hl _ hl' rfl
  exact (hmakes l hl').1 (hlowered l hl).plain

/-- What is emitted for a lowered method that ends with a return has its labels in order. -/
theorem wellLabelled {options : Options} {owner : Ir.Class} {ir : Ir.Method} {block : MethodBlock}
    {n : Nat} {s : Jvm.Emitted} (hir : Gives (lowerMethod symbols d) k ir k')
    (hends : d.returnTy.isVoid ∨ d.endsWithReturn) (h : MethodEmitted options owner ir n block s) :
    WellLabelled block.code := by
  have hbody := (lowerMethod_gives hir).body
  have hcode := lowerBody_code hbody
  obtain ⟨_, made, hnodup, hmade, hlabels, htargets⟩ := h.layout.controls
  obtain ⟨o, ho⟩ := lowerBody_returns hends hbody
  obtain ⟨kind, hkind⟩ := h.layout.ends ho
  refine ⟨hlabels.symm.nodup (nodup_append_made hcode.labels_nodup (lowerBody_labels hbody) hnodup hmade),
    fun l hl => hlabels.mem_iff.mpr ?_, fun place l hl => ?_, kind, hkind⟩
  · rcases List.mem_append.mp (htargets.mem_iff.mp hl) with hl | hl
    · exact List.mem_append_right _ hl
    · exact List.mem_append_left _ (hcode.targets_marked l hl)
  · have hlast : block.code[block.code.length - 1]? = some (.ret kind) := by
      rwa [← List.getLast?_eq_getElem?]
    refine ⟨block.code.length - 1, .ret kind, ?_, hlast, rfl⟩
    have hlt := (List.getElem?_eq_some_iff.mp hl).1
    have hne : place ≠ block.code.length - 1 := by
      rintro rfl
      cases hl.symm.trans hlast
    omega

section Turns

variable {options : Options} {entries : List (Ir.Method × MethodBlock)} {n n' : Nat}

theorem emits_legible (h : Emits options n entries n') (hlowered : ∀ e ∈ entries, IsLowered e.1) :
    ∀ e ∈ entries, e.2.Legible := by
  induction h with
  | nil => exact nofun
  | skip _ _ ih => exact ih hlowered
  | method howner hm _ ih =>
    rw [List.forall_mem_cons] at hlowered
    obtain ⟨s, hemitted, rfl⟩ := assembleMethod_gives hm
    obtain ⟨hname, hinstrs⟩ := hlowered.1.legible
    exact List.forall_mem_cons.mpr ⟨hemitted.legible howner hname hinstrs, ih hlowered.2⟩

theorem emits_pairwise (h : Emits options n entries n') (hlowered : ∀ e ∈ entries, IsLowered e.1) :
    entries.Pairwise fun a b => ∀ l ∈ labelsOf a.2.code, l ∈ labelsOf b.2.code →
      l ∈ labelsOf a.1.instructions ∧ l ∈ labelsOf b.1.instructions := by
  induction h with
  | nil => exact .nil
  | skip _ _ ih => exact ih hlowered
  | @method n n₁ last owner m block rest howner hm hrest ih =>
    rw [List.forall_mem_cons] at hlowered
    refine .cons (fun e he l hl hl' => ?_) (ih hlowered.2)
    have hfirst := (Emits.method howner hm .nil).label _ List.mem_cons_self l hl
    have hsecond := hrest.label e he l hl'
    have hplain : ∀ {ir l}, IsLowered ir → l ∈ labelsOf ir.instructions → PlainLabel l :=
      fun hir hl => (hir.labels _ hl).plain
    rcases hfirst with hfirst | hfirst
    · exact ⟨hfirst, hsecond.resolve_right fun hmade => hmade.1 (hplain hlowered.1 hfirst)⟩
    · rcases hsecond with hsecond | hsecond
      · exact absurd (hplain (hlowered.2 e he) hsecond) hfirst.1
      · exact absurd rfl (hfirst.ne hsecond (Nat.le_refl n₁))

/-- All labels that are emitted differ, if the methods come from one lowerer. -/
theorem emits_nodup (h : Emits options n entries n') (hlowered : ∀ e ∈ entries, IsLowered e.1)
    {irs : List Ir.Method} (hirs : LowersAll symbols k irs k')
    (hsub : (entries.map (·.1)).Subperm irs) :
    (entries.flatMap fun e => labelsOf e.2.code).Nodup := by
  obtain ⟨_, made, hnodup, hmade, hlabels⟩ := h.labels
  have hmethods : (entries.flatMap fun e => labelsOf e.1.instructions).Nodup := by
    obtain ⟨irs', hperm, hsublist⟩ := hsub
    have hflat : (entries.flatMap fun e => labelsOf e.1.instructions) =
        (entries.map (·.1)).flatMap fun ir => labelsOf ir.instructions := by
      rw [List.flatMap_map]
    rw [hflat]
    exact (hperm.flatMap_right _).nodup_iff.mp ((hsublist.flatMap _).nodup hirs.labels.1)
  have hall : ∀ l ∈ entries.flatMap fun e => labelsOf e.1.instructions, LoweredLabel l := by
    intro l hl
    obtain ⟨e, he, hl⟩ := List.mem_flatMap.mp hl
    exact (hlowered e he).labels l hl
  exact hlabels.symm.nodup (nodup_append_made hmethods hall hnodup hmade)

end Turns

/-- The labels of a lowered method are defined once, its jumps go to them, and it ends with a return;
its emitted text, whatever was emitted before, is read as one method with its labels in order. A module
is emitted method by method, and its text is read as these methods. In all that one generator emits a
label that is in two texts is one of two lowered methods, and none is there twice if the methods come
from one lowerer. -/
theorem lowerMethod_labels_wellFormed :
    (∀ symbols d k ir k', d.returnTy.isVoid ∨ d.endsWithReturn →
      Gives (lowerMethod symbols d) k ir k' →
      (labelsOf ir.instructions).Nodup ∧
      (∀ l ∈ targetsOf ir.instructions, l ∈ labelsOf ir.instructions) ∧
      EndsInReturn ir.instructions ∧
      (NamesLegible symbols d → ∀ options owner n block n', (Jvm.Resolver.ofClass owner).Legible →
        Gives (assembleMethod options owner ir) n block n' →
        ∃ b, Jvm.readMethods block.text = some [b] ∧ WellLabelled b.code)) ∧
    (∀ options mod n files n', (∀ c ∈ mod.classes, Jvm.ClassLegible c ∧ ∀ m ∈ c.methods, IsLowered m) →
      Gives (assemble options mod) n files n' →
      Emits options n ((mod.classes.flatMap (·.methods)).zip (files.flatMap (·.methods))) n' ∧
      ∀ file ∈ files, Jvm.readMethods file.text =
        some (Jvm.constructorBlock file.superclass :: file.methods)) ∧
    ∀ options n entries n', Emits options n entries n' → (∀ e ∈ entries, IsLowered e.1) →
      (∀ e ∈ entries, Jvm.readMethods e.2.text = some [e.2]) ∧
      entries.Pairwise (fun a b => ∀ l ∈ labelsIn a.2.text, l ∈ labelsIn b.2.text →
        l ∈ labelsOf a.1.instructions ∧ l ∈ labelsOf b.1.instructions) ∧
      ∀ symbols k irs k', LowersAll symbols k irs k' → (entries.map (·.1)).Subperm irs →
        (entries.flatMap fun e => labelsIn e.2.text).Nodup := by
  refine ⟨fun symbols d k ir k' hends h => ?_, fun options mod n files n' hmod h => ⟨?_, ?_⟩,
    fun options n entries n' h hlowered => ?_⟩
  · have hbody := (lowerMethod_gives h).body
    have hcode := lowerBody_code hbody
    refine ⟨hcode.labels_nodup, hcode.targets_marked, lowerBody_returns hends hbody,
      fun hnames options owner n block n' howner hblock => ?_⟩
    obtain ⟨s, hemitted, rfl⟩ := assembleMethod_gives hblock
    exact ⟨block, lowered_readMethods hnames h howner hemitted, wellLabelled h hends hemitted⟩
  · exact (assemble_emits (fun c hc => (hmod c hc).1) h).2
  · intro file hfile
    obtain ⟨hlength, hfiles⟩ := List.forall₂_iff_get.mp (assembleClasses_each h)
    obtain ⟨i, hi, rfl⟩ := List.getElem_of_mem hfile
    have hi' : i < mod.classes.length := hlength.symm ▸ hi
    obtain ⟨hlegible, hmethods⟩ := hmod _ (List.getElem_mem hi')
    exact Jvm.readMethods_class ((hfiles i hi' hi).legible hlegible fun m hm => (hmethods m hm).legible)
  · have hlegible := emits_legible h hlowered
    refine ⟨fun e he => Jvm.readMethods_method (hlegible e he), ?_, fun symbols k irs k' hirs hsub => ?_⟩
    · refine (emits_pairwise h hlowered).imp_of_mem fun ha hb hlabels => ?_
      rw [labelsIn_method (hlegible _ ha), labelsIn_method (hlegible _ hb)]
      exact hlabels
    · have hread : (entries.flatMap fun e => labelsIn e.2.text) =
          entries.flatMap fun e => labelsOf e.2.code :=
        List.flatMap_congr fun e he => labelsIn_method (hlegible e he)
      rw [hread]
      exact emits_nodup h hlowered hirs hsub

/-- A method that compares and branches, lowered twice by one lowerer and emitted as one module, from
a label number that other code left. -/
theorem lowerMethod_labels_wellFormed_twice :
    let m : Method := {
      name := "f", returnTy := .int, params := [{ name := "p", ty := .int }]
      body := [.ite (.not (.binary .lt (.var "p") (.literal (.int 0)))) (.ret (some (.var "p")))
        (.block []), .ret (some (.literal (.int 0)))] }
    let symbols : SymbolTable :=
      { className := "A", superclass := none, imports := [], fields := []
        methods := [.ofMethod m] }
    let ir (t l : Nat) : Ir.Method := {
      name := "f", isStatic := false, returnTy := .int, params := [{ name := "p", ty := .int }]
      vars := .ofList [(.receiver, .object "A"), (.named "p", .int), (.temp t, .boolean),
        (.temp (t + 1), .boolean)]
      instructions := [
        .assignVar (.temp t .boolean) (.binary .lt (.var "p" .int) (.int 0)),
        .assignVar (.temp (t + 1) .boolean) (.not (.temp t .boolean)),
        .condGoto (.operand (.temp (t + 1) .boolean)) (.numbered .thenBranch l),
        .goto (.numbered .endIf l), .label (.numbered .thenBranch l), .ret (some (.var "p" .int)),
        .label (.numbered .endIf l), .ret (some (.int 0))]
      labels := [(.numbered .endIf l, 6), (.numbered .thenBranch l, 4)] }
    let mod : Ir.Module := { classes := [{ name := "A", methods := [ir 0 0, ir 2 1] }] }
    (m.returnTy.isVoid ∨ m.endsWithReturn) ∧ Gives (lowerMethod symbols m) {} (ir 0 0) ⟨2, 1⟩ ∧
      Gives (lowerMethod symbols m) ⟨2, 1⟩ (ir 2 1) ⟨4, 2⟩ ∧
      (∃ block n b, Gives (assembleMethod {} { name := "A" } (ir 2 1)) 5 block n ∧
        Jvm.readMethods block.text = some [b] ∧ WellLabelled b.code) ∧
      ∃ files n, Gives (assemble {} mod) 5 files n ∧
        (([ir 0 0, ir 2 1].zip (files.flatMap (·.methods))).flatMap
          fun e => labelsIn e.2.text).Nodup := by
  intro m symbols ir mod
  have hnames : NamesLegible symbols m := by
    refine ⟨by decide, nofun, ?_⟩
    simp only [m, Stmt.AllKeep, Stmt.Keeps, Expr.Keeps, CallsLegible, and_self]
  have howner : (Jvm.Resolver.ofClass { name := "A" }).Legible :=
    ⟨(by decide : Jvm.Unmarked "A"), nofun⟩
  have hclass : Jvm.ClassLegible { name := "A", methods := [ir 0 0, ir 2 1] } := ⟨howner, nofun, nofun⟩
  have hends : m.returnTy.isVoid ∨ m.endsWithReturn := .inr rfl
  have hfirst : Gives (lowerMethod symbols m) {} (ir 0 0) ⟨2, 1⟩ := rfl
  have hsecond : Gives (lowerMethod symbols m) ⟨2, 1⟩ (ir 2 1) ⟨4, 2⟩ := rfl
  have hlowered : ∀ ir' ∈ [ir 0 0, ir 2 1], IsLowered ir' := by
    rw [List.forall_mem_cons, List.forall_mem_singleton]
    exact ⟨⟨symbols, m, _, _, hnames, hfirst⟩, symbols, m, _, _, hnames, hsecond⟩
  refine ⟨hends, hfirst, hsecond, ?_, ?_⟩
  · obtain ⟨block, n, hblock⟩ : ∃ block n, Gives (assembleMethod {} { name := "A" } (ir 2 1)) 5 block n :=
      Gives.of_isOk (by decide)
    obtain ⟨b, hread, hlabels⟩ := (lowerMethod_labels_wellFormed.1 symbols m _ _ _ hends
      hsecond).2.2.2 hnames _ _ _ _ _ howner hblock
    exact ⟨block, n, b, hblock, hread, hlabels⟩
  · obtain ⟨files, n, hfiles⟩ : ∃ files n, Gives (assemble {} mod) 5 files n :=
      Gives.of_isOk (by decide)
    have hmod : ∀ c ∈ mod.classes, Jvm.ClassLegible c ∧ ∀ m ∈ c.methods, IsLowered m :=
      List.forall_mem_singleton.mpr ⟨hclass, hlowered⟩
    have hlength := (assemble_emits (fun c hc => (hmod c hc).1) hfiles).1
    have hmethods : ((mod.classes.flatMap (·.methods)).zip (files.flatMap (·.methods))).map (·.1) =
        [ir 0 0, ir 2 1] := List.map_fst_zip (Nat.le_of_eq hlength.symm)
    have hemits := (lowerMethod_labels_wellFormed.2.1 _ mod _ _ _ hmod hfiles).1
    refine ⟨files, n, hfiles, (lowerMethod_labels_wellFormed.2.2 _ _ _ _ hemits fun e he => ?_).2.2
      symbols {} [ir 0 0, ir 2 1] ⟨4, 2⟩ (.method hfirst (.method hsecond .nil)) ?_⟩
    · exact hlowered e.1 (hmethods ▸ List.mem_map_of_mem he)
    · have hself : [ir 0 0, ir 2 1].Subperm [ir 0 0, ir 2 1] :=
        ⟨_, List.Perm.refl _, List.Sublist.refl _⟩
      exact hmethods.symm ▸ hself

end Semantics

end MiniJava
