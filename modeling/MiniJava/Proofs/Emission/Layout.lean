import MiniJava.Proofs.Emission.Blocks
import MiniJava.Proofs.Emission.Depth
import MiniJava.Proofs.Lowering.Layout

/-!
# The layout of emitted methods

The code of a method is the code of its instructions one after another. Each label stands in it once,
so a jump leads to the code of the instruction that defines the label.
-/

namespace MiniJava.Jvm

open Ir (Operand Value Call)

variable {f : Frame} {s s' : Emitted} {fits : Prop}

/-! ## The code of a method -/

/-- The code in front of an instruction: an object that waits on the stack is dropped unless the
instruction is its constructor call. -/
def settleCode (pending : Option Operand) (i : Ir.Instr) : List Instr :=
  if pending.all (isConstructorOf · i) then [] else [.pop]

/-- The code of instructions one after another, between two numbers of labels. An object that waits
at the end is dropped. -/
inductive Layout (f : Frame) : Nat → Option Operand → List Ir.Instr → List Instr → Nat → Prop
  | nil {n : Nat} {pending : Option Operand} :
    Layout f n pending [] (if pending.isSome then [.pop] else []) n
  | cons {n n' last : Nat} {pending pending' : Option Operand} {i : Ir.Instr}
    {rest : List Ir.Instr} {code more : List Instr}
    (hcode : InstrCode f n (pending.filter (isConstructorOf · i)) i code pending' n')
    (hrest : Layout f n' pending' rest more last) :
    Layout f n pending (i :: rest) (settleCode pending i ++ code ++ more) last

theorem dropPending_extends {u : Unit} (h : Gives dropPending s u s') :
    Extends fits s (if s.pending.isSome then [.pop] else []) s' ∧ s'.pending = none ∧
      s'.nextLabel = s.nextLabel := by
  rw [dropPending] at h
  obtain ⟨t, t', hget, h⟩ := h.bind
  obtain ⟨rfl, rfl⟩ := Gives.get_iff.mp hget
  cases hp : s.pending with
  | none =>
    rw [hp, if_neg nofun] at h
    obtain ⟨_, rfl⟩ := Gives.pure_iff.mp h
    exact ⟨.refl s, hp, rfl⟩
  | some o =>
    simp only [hp, Option.isSome_some, if_true] at h
    obtain ⟨_, t, hmodify, h⟩ := h.bind
    cases Gives.modify_iff.mp hmodify
    cases gives_emit h
    have hextends : Extends fits s [.pop] (s.put .pop 1 0) := .counted rfl rfl rfl
    exact ⟨⟨hextends.appended, hextends.tracked⟩, rfl, rfl⟩

theorem settlePending_extends {i : Ir.Instr} {u : Unit} (h : Gives (settlePending i) s u s') :
    Extends fits s (settleCode s.pending i) s' ∧
      s'.pending = s.pending.filter (isConstructorOf · i) ∧ s'.nextLabel = s.nextLabel := by
  rw [settlePending] at h
  obtain ⟨t, t', hget, h⟩ := h.bind
  obtain ⟨rfl, rfl⟩ := Gives.get_iff.mp hget
  cases hp : s.pending with
  | none =>
    simp only [hp, Option.any_none, Bool.not_false, if_true] at h
    obtain ⟨hextends, hnone, hlabel⟩ := dropPending_extends h
    rw [hp] at hextends
    exact ⟨hextends, hnone, hlabel⟩
  | some o =>
    cases hconstructor : isConstructorOf o i with
    | true =>
      rw [hp, if_neg (by simp [hconstructor])] at h
      obtain ⟨_, rfl⟩ := Gives.pure_iff.mp h
      simp only [settleCode, Option.all_some, hconstructor, if_true, Option.filter_some]
      exact ⟨.refl s, hp, trivial⟩
    | false =>
      rw [hp, if_pos (by simp [hconstructor])] at h
      obtain ⟨hextends, hnone, hlabel⟩ := dropPending_extends h
      rw [hp] at hextends
      simp only [settleCode, Option.all_some, hconstructor, Bool.false_eq_true, if_false,
        Option.filter_some]
      exact ⟨hextends, hnone, hlabel⟩

/-- An object goes on waiting for its constructor call, and is dropped before anything else. -/
theorem settleCode_cases (pending : Option Operand) (i : Ir.Instr) :
    settleCode pending i = [] ∧ pending.filter (isConstructorOf · i) = pending ∨
      pending.isSome ∧ settleCode pending i = [.pop] ∧
        pending.filter (isConstructorOf · i) = none := by
  cases pending with
  | none => exact .inl ⟨rfl, rfl⟩
  | some o => cases hconstructor : isConstructorOf o i <;> simp [settleCode, hconstructor]

theorem settleCode_balanced (pending : Option Operand) (i : Ir.Instr) :
    Balanced (waitingWords pending) (settleCode pending i)
      (waitingWords (pending.filter (isConstructorOf · i))) := by
  rcases settleCode_cases pending i with ⟨hcode, hpending⟩ | ⟨hsome, hcode, hpending⟩
  · rw [hcode, hpending]
    exact .nil
  · rw [hcode, hpending, waitingWords, if_pos hsome]
    exact .single rfl (Nat.le_refl 1) rfl

/-- Emission keeps count of the object that waits. -/
def Counted (s : Emitted) : Prop :=
  s.stack.depth = waitingWords s.pending

theorem Counted.extends {d : Nat} {code : List Instr} (h : s.stack.depth = d)
    (hextends : Extends fits s code s') (hfits : fits)
    (hbalanced : Balanced d code (waitingWords s'.pending)) : Counted s' := by
  subst h
  rw [Counted, ← hbalanced.depth s.stack.peak]
  exact congrArg Prod.fst (hextends.tracked hfits)

theorem emitInstr_code {i : Ir.Instr} {u : Unit} (hi : fits → Sound f i) (hs : fits → Counted s)
    (h : Gives (emitInstr f i) s u s') :
    ∃ code, InstrCode f s.nextLabel (s.pending.filter (isConstructorOf · i)) i code s'.pending
        s'.nextLabel ∧ Extends fits s (settleCode s.pending i ++ code) s' ∧
      (fits → Counted s') := by
  rw [emitInstr] at h
  obtain ⟨_, t, hbegin, h⟩ := h.bind
  cases Gives.modify_iff.mp hbegin
  obtain ⟨_, t, hsettle, h⟩ := h.bind
  obtain ⟨hextends, hpending, hlabel⟩ := settlePending_extends hsettle
  have hsettled : Extends fits s (settleCode s.pending i) t := ⟨hextends.appended, hextends.tracked⟩
  have hbalanced := settleCode_balanced s.pending i
  have ht : fits → Counted t :=
    fun hf => .extends (hs hf) hsettled hf (by rw [hpending]; exact hbalanced)
  obtain ⟨code, hcode, hbody⟩ := emitBody_code (fun hf => (hi hf).calls) ht
    (fun hf l hl => (hi hf).defined l (by rw [hl]; rfl)) (fun o ho => by
      rw [hpending] at ho
      exact (Option.filter_eq_some_iff.mp ho).2) h
  rw [hlabel, hpending] at hcode
  refine ⟨code, hcode, hsettled.trans hbody, fun hf => .extends (ht hf) hbody hf ?_⟩
  rw [hpending]
  exact hcode.balanced (hi hf)

theorem emitInstrs_layout : ∀ {instrs : List Ir.Instr} {s s' : Emitted} {u : Unit},
    (fits → ∀ i ∈ instrs, Sound f i) → (fits → Counted s) → Gives (emitInstrs f instrs) s u s' →
      ∃ code, Layout f s.nextLabel s.pending instrs code s'.nextLabel ∧ Extends fits s code s'
  | [], s, s', u, _, _, h => by
    obtain ⟨hextends, _, hlabel⟩ := dropPending_extends h
    rw [hlabel]
    exact ⟨_, .nil, hextends⟩
  | i :: rest, s, s', u, hsound, hs, h => by
    obtain ⟨_, t, hi, h⟩ := h.bind
    obtain ⟨code, hcode, hextends, ht⟩ := emitInstr_code (fun hf => hsound hf i List.mem_cons_self) hs hi
    obtain ⟨more, hmore, hrest⟩ :=
      emitInstrs_layout (fun hf j hj => hsound hf j (List.mem_cons_of_mem i hj)) ht h
    exact ⟨_, .cons hcode hmore, hextends.trans hrest⟩

/-- What is emitted for a method is the code of its instructions. -/
theorem MethodEmitted.layout {options : Options} {owner : Ir.Class} {m : Ir.Method}
    {block : MethodBlock} {s : Emitted} (h : MethodEmitted options owner m n block s) :
    Layout (frameOf options owner m) n none m.instructions block.code s.nextLabel := by
  obtain ⟨code, hlayout, hextends⟩ : ∃ code, Layout (frameOf options owner m) n none m.instructions code
      s.nextLabel ∧ Extends False { nextLabel := n } code s :=
    emitInstrs_layout False.elim False.elim h.instrs
  have hcode : block.code = code := h.code.trans (hextends.appended.trans (List.nil_append code))
  rw [hcode]
  exact hlayout

/-! ## Labels -/

/-- The labels that emission makes between two numbers. -/
def MadeLabel (n n' : Nat) (l : Label) : Prop :=
  ¬ PlainLabel l ∧ ∃ role k, l = .numbered role k ∧ n ≤ k ∧ k < n'

theorem isLoad_straight {i : Instr} (h : i.isLoad) : i.isStraight := by
  cases i <;> first | rfl | cases h

theorem Loads.straight {operands : List Operand} {code : List Instr} (h : Loads f operands code) :
    ∀ i ∈ code, i.isStraight := by
  induction h with
  | nil => exact nofun
  | cons hi _ ih =>
    intro i hmem
    rcases List.mem_cons.mp hmem with rfl | hmem
    · exact isLoad_straight (loadInstr_isLoad hi)
    · exact ih i hmem

theorem CallCode.straight {call : Call} {waiting : Bool} {code : List Instr}
    (h : CallCode f call waiting code) : ∀ i ∈ code, i.isStraight := by
  cases h with
  | newArray _ _ _ hi | arrayLength _ hi =>
    intro i hmem
    rcases List.mem_cons.mp hmem with rfl | hmem
    · exact isLoad_straight (loadInstr_isLoad hi)
    · rw [List.mem_singleton.mp hmem]
      rfl
  | invoke _ _ _ _ hloads =>
    intro i hmem
    rcases List.mem_append.mp hmem with hmem | hmem
    · exact hloads.straight i hmem
    · rw [List.mem_singleton.mp hmem]
      rfl

theorem not_label_of_straight {code : List Instr} (h : ∀ i ∈ code, i.isStraight) (l : Label) :
    Instr.label l ∉ code :=
  fun hmem => Bool.false_ne_true (h _ hmem)

theorem ValueCode.next_le {n n' : Nat} {value : Value} {code : List Instr}
    (h : ValueCode f n value code n') : n ≤ n' := by
  cases h with
  | less => exact Nat.le_add_right n 2
  | operand | binary | not | getField | arrayLoad | call => exact Nat.le_refl n

theorem ValueCode.labels {n n' : Nat} {value : Value} {code : List Instr}
    (h : ValueCode f n value code n') {l : Label} (hl : Instr.label l ∈ code) :
    MadeLabel n n' l := by
  have hload : ∀ {o : Operand} {i : Instr}, loadInstr f o = .ok i → Instr.label l ≠ i := by
    rintro o i hi rfl
    exact Bool.false_ne_true (loadInstr_isLoad hi)
  cases h with
  | operand hi => exact absurd (List.mem_singleton.mp hl) (hload hi)
  | less hi hj =>
    simp only [lessCode, List.mem_cons, List.not_mem_nil, or_false, hload hi, hload hj, false_or,
      reduceCtorEq, Instr.label.injEq] at hl
    rcases hl with rfl | rfl
    · exact ⟨id, _, _, rfl, Nat.le_refl _, Nat.lt_add_of_pos_right (by decide)⟩
    · exact ⟨id, _, _, rfl, Nat.le_succ _, Nat.lt_succ_self _⟩
  | binary hop hi hj | arrayLoad hi hj =>
    simp only [List.mem_cons, List.not_mem_nil, or_false, hload hi, hload hj, reduceCtorEq] at hl
  | @not o i hi =>
    have hnegator : Instr.label l ≠ negator f i := by
      rw [negator]
      cases f.negation with
      | selfXor => exact hload hi
      | xorOne => simp
    simp only [List.mem_cons, List.not_mem_nil, or_false, hload hi, hnegator, reduceCtorEq] at hl
  | getField howner hi =>
    simp only [List.mem_cons, List.not_mem_nil, or_false, hload hi, reduceCtorEq] at hl
  | call hcall => exact absurd hl (not_label_of_straight hcall.straight l)

theorem InstrCode.next_le {n n' : Nat} {pending pending' : Option Operand} {i : Ir.Instr}
    {code : List Instr} (h : InstrCode f n pending i code pending' n') : n ≤ n' := by
  cases h with
  | assignVar _ _ hvalue | assignElement _ _ hvalue | condValue _ hvalue => exact hvalue.next_le
  | newObject | putField | call | label | goto | condLess | ret | retNone => exact Nat.le_refl n

theorem InstrCode.labels {n n' : Nat} {pending pending' : Option Operand} {i : Ir.Instr}
    {code : List Instr} (h : InstrCode f n pending i code pending' n') {l : Label}
    (hl : Instr.label l ∈ code) : i = .label l ∨ MadeLabel n n' l := by
  have hload : ∀ {o : Operand} {i : Instr}, loadInstr f o = .ok i → Instr.label l ≠ i := by
    rintro o i hi rfl
    exact Bool.false_ne_true (loadInstr_isLoad hi)
  have hstore : ∀ {o : Operand} {i : Instr}, storeInstr f o = .ok i → Instr.label l ≠ i := by
    rintro o i hi rfl
    have hbalanced := storeInstr_balanced hi 1
    cases hbalanced with
    | straight hi => cases hi
    | jump hi => cases hi
  cases h with
  | newObject hnew hty hst =>
    simp only [List.mem_cons, List.not_mem_nil, or_false, hstore hst, reduceCtorEq] at hl
  | assignVar hnew hty hvalue hst =>
    simp only [List.mem_append, List.mem_singleton, hstore hst, or_false] at hl
    exact .inr (hvalue.labels hl)
  | assignElement hi hj hvalue =>
    simp only [List.mem_append, List.mem_cons, List.not_mem_nil, hload hi, hload hj, or_false,
      false_or, reduceCtorEq] at hl
    exact .inr (hvalue.labels hl)
  | putField howner hi hj | condLess hi hj =>
    simp only [List.mem_cons, List.not_mem_nil, or_false, hload hi, hload hj, reduceCtorEq] at hl
  | @call call pending code hnew hpending hcall =>
    rcases List.mem_append.mp hl with hl | hl
    · exact absurd hl (not_label_of_straight hcall.straight l)
    · by_cases hvoid : call.returnTy.isVoid
      · rw [if_pos hvoid] at hl
        cases hl
      · rw [if_neg hvoid] at hl
        exact absurd (List.mem_singleton.mp hl) nofun
  | label =>
    cases List.mem_singleton.mp hl
    exact .inl rfl
  | goto => exact absurd (List.mem_singleton.mp hl) nofun
  | condValue hless hvalue =>
    simp only [List.mem_append, List.mem_singleton, or_false, reduceCtorEq] at hl
    exact .inr (hvalue.labels hl)
  | ret hi => simp only [List.mem_cons, List.not_mem_nil, or_false, hload hi, reduceCtorEq] at hl
  | retNone => exact absurd (List.mem_singleton.mp hl) nofun

/-! ## Places -/

/-- The labels in front of a place: those of the instructions so far, and those that emission made
below a number. -/
def LabelsBefore (done : List Ir.Instr) (n : Nat) (code : List Instr) : Prop :=
  ∀ l, Instr.label l ∈ code → Ir.Instr.label l ∈ done ∨ MadeLabel 0 n l

/-- At a place of emitted code begins the code of the instructions from some index on. -/
structure Aligned (f : Frame) (instrs : List Ir.Instr) (whole : List Instr) (index n : Nat)
    (pending : Option Operand) (place : Nat) : Prop where
  layout : ∃ code last, Layout f n pending (instrs.drop index) code last ∧ Placed whole place code
  labels : LabelsBefore (instrs.take index) n (whole.take place)

/-- At a place of emitted code begins the code of an instruction, the object that waits before it
settled. Behind it begins the code of the next instructions. -/
structure AlignedInstr (f : Frame) (instrs : List Ir.Instr) (whole : List Instr) (index n : Nat)
    (waiting : Option Operand) (i : Ir.Instr) (place : Nat) : Prop where
  code : ∃ code waiting' n', InstrCode f n waiting i code waiting' n' ∧ Placed whole place code ∧
    Aligned f instrs whole (index + 1) n' waiting' (place + code.length)
  labels : LabelsBefore (instrs.take index) n (whole.take place)

variable {instrs : List Ir.Instr} {whole : List Instr} {index n place : Nat}
  {pending : Option Operand}

theorem settleCode_straight (pending : Option Operand) (i : Ir.Instr) :
    ∀ j ∈ settleCode pending i, j.isStraight := by
  rw [settleCode]
  split
  · exact nofun
  · intro j hj
    rw [List.mem_singleton.mp hj]
    rfl

theorem LabelsBefore.append {done : List Ir.Instr} {code more : List Instr}
    (h : LabelsBefore done n code) (hmore : ∀ l, Instr.label l ∉ more) :
    LabelsBefore done n (code ++ more) := by
  intro l hl
  rcases List.mem_append.mp hl with hl | hl
  · exact h l hl
  · exact absurd hl (hmore l)

theorem MadeLabel.below {n n' k : Nat} {l : Label} (h : MadeLabel k n l) (hn : n ≤ n') :
    MadeLabel 0 n' l := by
  obtain ⟨hplain, role, k, rfl, _, hk⟩ := h
  exact ⟨hplain, role, k, rfl, Nat.zero_le k, Nat.lt_of_lt_of_le hk hn⟩

theorem LabelsBefore.step {n' : Nat} {pending' : Option Operand} {i : Ir.Instr}
    {code more : List Instr} (h : LabelsBefore (instrs.take index) n code)
    (hi : instrs[index]? = some i) (hmore : InstrCode f n pending i more pending' n') :
    LabelsBefore (instrs.take (index + 1)) n' (code ++ more) := by
  have htake : instrs.take (index + 1) = instrs.take index ++ [i] := by
    rw [List.take_add_one, hi]
    rfl
  rw [htake]
  intro l hl
  rcases List.mem_append.mp hl with hl | hl
  · rcases h l hl with hdone | hmade
    · exact .inl (List.mem_append_left _ hdone)
    · exact .inr (hmade.below hmore.next_le)
  · rcases hmore.labels hl with rfl | hmade
    · exact .inl (List.mem_append_right _ List.mem_cons_self)
    · exact .inr (hmade.below (Nat.le_refl n'))

theorem Aligned.instr {i : Ir.Instr} (h : Aligned f instrs whole index n pending place)
    (hi : instrs[index]? = some i) :
    AlignedInstr f instrs whole index n (pending.filter (isConstructorOf · i)) i
      (place + (settleCode pending i).length) ∧ Placed whole place (settleCode pending i) := by
  obtain ⟨⟨code, last, hlayout, hplaced⟩, hlabels⟩ := h
  obtain ⟨hlt, rfl⟩ := List.getElem?_eq_some_iff.mp hi
  rw [List.drop_eq_getElem_cons hlt] at hlayout
  cases hlayout with
  | @cons _ n' _ _ pending' _ _ code more hcode hrest =>
    have hsettled : LabelsBefore (instrs.take index) n
        (whole.take (place + (settleCode pending instrs[index]).length)) := by
      rw [hplaced.left.left.take]
      exact hlabels.append (not_label_of_straight (settleCode_straight pending _))
    refine ⟨⟨⟨code, pending', n', hcode, hplaced.left.right, ⟨more, last, hrest, ?_⟩, ?_⟩, hsettled⟩,
      hplaced.left.left⟩
    · refine hplaced.right.at ?_
      rw [List.length_append, Nat.add_assoc]
    · rw [hplaced.left.right.take]
      exact hsettled.step hi hcode

theorem Aligned.reach (h : Aligned f instrs whole 0 n pending place) :
    ∀ index, index ≤ instrs.length → ∃ n pending place, Aligned f instrs whole index n pending place
  | 0, _ => ⟨n, pending, place, h⟩
  | index + 1, hle => by
    obtain ⟨n, pending, place, h⟩ := h.reach index (Nat.le_of_succ_le hle)
    obtain ⟨⟨code, pending', n', _, _, hnext⟩, _⟩ := (h.instr (List.getElem?_eq_getElem hle)).1
    exact ⟨n', pending', _, hnext⟩

theorem idxOf?_placed {x : Instr} {rest : List Instr} (h : Placed whole place (x :: rest))
    (hx : x ∉ whole.take place) : whole.idxOf? x = some place := by
  obtain ⟨hlt, hget⟩ := List.getElem?_eq_some_iff.mp h.head
  refine List.idxOf?_eq_some_iff.mpr ⟨hlt, hget, fun j hj heq => hx ?_⟩
  rw [← heq]
  exact List.mem_take_iff_getElem.mpr ⟨j, by omega, rfl⟩

theorem AlignedInstr.idxOf_label {l : Label} {waiting : Option Operand}
    (hm : ∀ i j : Nat, instrs[i]? = some (.label l) → instrs[j]? = some (.label l) → i = j)
    (hl : PlainLabel l) (hi : instrs[index]? = some (.label l))
    (h : AlignedInstr f instrs whole index n waiting (.label l) place) :
    whole.idxOf? (.label l) = some place := by
  obtain ⟨⟨code, waiting', n', hcode, hplaced, _⟩, hlabels⟩ := h
  cases hcode with
  | label =>
    refine idxOf?_placed hplaced fun hmem => ?_
    rcases hlabels l hmem with hdone | hmade
    · obtain ⟨j, hj⟩ := List.getElem?_of_mem hdone
      rw [List.getElem?_take] at hj
      split at hj
      · rename_i hlt
        exact absurd (hm j index hj hi) (Nat.ne_of_lt hlt)
      · cases hj
    · exact hmade.1 hl

theorem AlignedInstr.idxOf_made {l : Label} {waiting : Option Operand} {i : Ir.Instr} {n' : Nat}
    {first rest : List Instr} (h : AlignedInstr f instrs whole index n waiting i place)
    (hsound : ∀ i ∈ instrs, Sound f i) (hl : MadeLabel n n' l)
    (hplaced : Placed whole place (first ++ .label l :: rest)) (hfirst : Instr.label l ∉ first) :
    whole.idxOf? (.label l) = some (place + first.length) := by
  refine idxOf?_placed hplaced.right fun hmem => ?_
  rw [hplaced.left.take] at hmem
  rcases List.mem_append.mp hmem with hmem | hmem
  · rcases h.labels l hmem with hdone | hmade
    · exact hl.1 ((hsound _ (List.mem_of_mem_take hdone)).defined l rfl)
    · obtain ⟨_, role, k, rfl, hk, _⟩ := hl
      obtain ⟨_, role', k', hk', _, hlt⟩ := hmade
      cases hk'
      exact absurd hlt (Nat.not_lt_of_le hk)
  · exact hfirst hmem

end MiniJava.Jvm
