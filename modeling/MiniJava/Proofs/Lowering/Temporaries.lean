import MiniJava.Proofs.Lowering.Labels

/-!
# Temporaries of lowered code

Code assigns the temporaries that were numbered for it, each with one type. Whatever it reads has a
value by then: in the order of the text, and on every path through the code.
-/

namespace MiniJava.Semantics

open Ir (Operand Instr)
open Lowering

variable {c : Context} {d : Method} {Φ : Instr → Prop} {outer os : List Operand} {k k' : Counters}
  {code : List Instr}

/-! ## Assigned temporaries -/

/-- The temporaries that code assigns, with their types. -/
def defsOf (code : List Instr) : List (Nat × Ty) :=
  code.filterMap Instr.definedVar?

@[simp] theorem defsOf_nil : defsOf [] = [] := rfl

@[simp] theorem defsOf_append (a b : List Instr) : defsOf (a ++ b) = defsOf a ++ defsOf b :=
  List.filterMap_append

theorem defsOf_cons (i : Instr) (rest : List Instr) :
    defsOf (i :: rest) = i.definedVar?.toList ++ defsOf rest := by
  rw [defsOf, List.filterMap_cons]
  cases i.definedVar? <;> rfl

@[simp] theorem defsOf_assignVar (id : Nat) (ty : Ty) (value : Ir.Value) (rest : List Instr) :
    defsOf (.assignVar (.temp id ty) value :: rest) = (id, ty) :: defsOf rest := defsOf_cons _ _

@[simp] theorem defsOf_condGoto (value : Ir.Value) (l : Label) (rest : List Instr) :
    defsOf (.condGoto value l :: rest) = defsOf rest := defsOf_cons _ _

@[simp] theorem defsOf_goto (l : Label) (rest : List Instr) :
    defsOf (Instr.goto l :: rest) = defsOf rest := defsOf_cons _ _

@[simp] theorem defsOf_label (l : Label) (rest : List Instr) :
    defsOf (Instr.label l :: rest) = defsOf rest := defsOf_cons _ _

theorem IsEffect.defsOf {i : Instr} (hi : IsEffect i) : defsOf [i] = [] := by
  rw [defsOf_cons, hi.assigns]
  rfl

theorem defsOf_skip (returns : Bool) (i : Instr) (hi : i.definedVar? = none) :
    defsOf (if returns then [] else [i]) = [] := by
  cases returns
  · rw [if_neg Bool.false_ne_true, defsOf_cons, hi]
    rfl
  · rfl

theorem Code.temp_number (h : Code c Φ outer k code os k') :
    ∀ x ∈ defsOf code, k.temps ≤ x.1 ∧ x.1 < k'.temps := by
  induction h with
  | nil | free => exact fun _ h => nomatch h
  | append ha hb iha ihb =>
    have := ha.counters_le
    have := hb.counters_le
    rw [defsOf_append, List.forall_mem_append]
    exact ⟨fun x hx => by have := iha x hx; omega, fun x hx => by have := ihb x hx; omega⟩
  | weaken _ _ ih => exact ih
  | compute h _ _ ih =>
    have := h.counters_le
    intro x hx
    simp only [defsOf_append, defsOf_assignVar, defsOf_nil, List.mem_append,
      List.mem_singleton] at hx
    grind
  | effect _ hi _ _ ih =>
    rw [defsOf_append, hi.defsOf, List.append_nil]
    exact ih
  | array _ h _ ih =>
    have := h.counters_le
    intro x hx
    simp only [defsOf_assignVar, List.mem_cons] at hx
    grind
  | and ha _ hb _ _ iha ihb | or ha _ hb _ _ iha ihb =>
    have := ha.counters_le
    have := hb.counters_le
    intro x hx
    simp only [defsOf_append, defsOf_condGoto, defsOf_assignVar, defsOf_goto, defsOf_label,
      defsOf_nil, List.mem_append, List.mem_cons, List.not_mem_nil, or_false] at hx ihb
    grind
  | @branch _ _ k k₁ k₂ k₃ test a b _ returns htest _ hb ha _ _ ihtest ihb iha =>
    have := htest.counters_le
    have := hb.counters_le
    have := ha.counters_le
    intro x hx
    simp only [defsOf_append, defsOf_condGoto, defsOf_label, defsOf_nil, List.append_nil,
      defsOf_skip _ (.goto _) rfl, defsOf_skip _ (.label _) rfl, List.mem_append] at hx ihtest
    grind
  | loop hbody htest _ _ ihbody ihtest =>
    have := hbody.counters_le
    have := htest.counters_le
    intro x hx
    simp only [defsOf_append, defsOf_condGoto, defsOf_goto, defsOf_label, defsOf_nil,
      List.append_nil, List.nil_append, List.mem_append] at hx ihbody
    grind

theorem Code.temp_type (h : Code c Φ outer k code os k') :
    ∀ x ∈ defsOf code, ∀ y ∈ defsOf code, x.1 = y.1 → x.2 = y.2 := by
  induction h with
  | nil | free => exact fun _ h => nomatch h
  | append ha hb iha ihb =>
    have hna := ha.temp_number
    have hnb := hb.temp_number
    intro x hx y hy hxy
    simp only [defsOf_append, List.mem_append] at hx hy
    grind
  | weaken _ _ ih => exact ih
  | compute h _ _ ih =>
    have hn := h.temp_number
    intro x hx y hy hxy
    simp only [defsOf_append, defsOf_assignVar, defsOf_nil, List.mem_append,
      List.mem_singleton] at hx hy
    grind
  | effect _ hi _ _ ih =>
    rw [defsOf_append, hi.defsOf, List.append_nil]
    exact ih
  | array _ h _ ih =>
    have hn := h.temp_number
    intro x hx y hy hxy
    simp only [defsOf_assignVar, List.mem_cons] at hx hy
    grind
  | and ha _ hb _ _ iha ihb | or ha _ hb _ _ iha ihb =>
    have hna := ha.temp_number
    have hnb := hb.temp_number
    intro x hx y hy hxy
    simp only [defsOf_append, defsOf_condGoto, defsOf_assignVar, defsOf_goto, defsOf_label,
      defsOf_nil, List.mem_append, List.mem_cons, List.not_mem_nil, or_false] at hx hy hnb
    grind
  | branch htest _ hb ha _ _ ihtest ihb iha =>
    have hntest := htest.temp_number
    have hnb := hb.temp_number
    have hna := ha.temp_number
    have := hb.counters_le
    intro x hx y hy hxy
    simp only [defsOf_append, defsOf_condGoto, defsOf_label, defsOf_nil, List.append_nil,
      defsOf_skip _ (.goto _) rfl, defsOf_skip _ (.label _) rfl, List.mem_append] at hx hy
    grind
  | loop hbody htest _ _ ihbody ihtest =>
    have hnbody := hbody.temp_number
    have hntest := htest.temp_number
    intro x hx y hy hxy
    simp only [defsOf_append, defsOf_condGoto, defsOf_goto, defsOf_label, defsOf_nil,
      List.append_nil, List.nil_append, List.mem_append] at hx hy
    grind

/-! ## Reads -/

/-- An operand has a value once some temporaries are assigned. -/
def Held (c : Context) (defs : List (Nat × Ty)) : Operand → Prop
  | .temp id ty => (id, ty) ∈ defs
  | o => Free c o

theorem Held.of_free {defs : List (Nat × Ty)} {o : Operand} (h : Free c o) : Held c defs o := by
  cases o with
  | temp id ty => exact h.elim
  | literal | var | receiver | classRef => exact h

theorem Held.mono {defs defs' : List (Nat × Ty)} {o : Operand} (h : Held c defs o)
    (hdefs : defs ⊆ defs') : Held c defs' o := by
  cases o with
  | temp id ty => exact hdefs h
  | literal | var | receiver | classRef => exact h

/-- Operands may be read by code in front of which some temporaries are assigned: they are there from
outside, or they have a value. -/
def MayRead (c : Context) (outer : List Operand) (defs : List (Nat × Ty)) (os : List Operand) :
    Prop :=
  ∀ o ∈ os, o ∈ outer ∨ Held c defs o

theorem MayRead.mono {outer' : List Operand} {defs defs' : List (Nat × Ty)}
    (h : MayRead c outer defs os) (houter : outer ⊆ outer') (hdefs : defs ⊆ defs') :
    MayRead c outer' defs' os :=
  fun o ho => (h o ho).imp (fun h => houter h) (·.mono hdefs)

/-- Every instruction reads only what the text in front of it has assigned. -/
def ReadsInOrder (c : Context) (outer : List Operand) : List (Nat × Ty) → List Instr → Prop
  | _, [] => True
  | defs, i :: rest =>
    MayRead c outer defs i.usedOperands
      ∧ ReadsInOrder c outer (i.definedVar?.toList ++ defs) rest

namespace ReadsInOrder

variable {defs defs' : List (Nat × Ty)} {a b : List Instr}

theorem mono {outer' : List Operand} (houter : outer ⊆ outer') :
    ∀ {code : List Instr} {defs defs' : List (Nat × Ty)}, ReadsInOrder c outer defs code →
      defs ⊆ defs' → ReadsInOrder c outer' defs' code
  | [], _, _, _, _ => trivial
  | _ :: _, _, _, h, hdefs =>
    ⟨h.1.mono houter hdefs, mono houter h.2 (List.append_subset.mpr
      ⟨List.subset_append_left _ _, List.subset_append_of_subset_right _ hdefs⟩)⟩

theorem append : ∀ {a : List Instr} {defs : List (Nat × Ty)}, ReadsInOrder c outer defs a →
    ReadsInOrder c outer (defsOf a ++ defs) b → ReadsInOrder c outer defs (a ++ b)
  | [], _, _, hb => hb
  | i :: rest, defs, ha, hb => by
    refine ⟨ha.1, append ha.2 (hb.mono (List.Subset.refl _) ?_)⟩
    rw [defsOf_cons]
    intro x hx
    simp only [List.mem_append] at hx ⊢
    rcases hx with (hx | hx) | hx
    · exact .inr (.inl hx)
    · exact .inl hx
    · exact .inr (.inr hx)

theorem single {i : Instr} (h : MayRead c outer defs i.usedOperands) :
    ReadsInOrder c outer defs [i] :=
  ⟨h, trivial⟩

theorem of_held {o : Operand} {code : List Instr} {defs : List (Nat × Ty)}
    (h : ReadsInOrder c (o :: outer) defs code) (ho : Held c defs o) :
    ReadsInOrder c outer defs code := by
  induction code generalizing defs with
  | nil => trivial
  | cons i rest ih =>
    refine ⟨fun o' ho' => ?_, ih h.2 (ho.mono (List.subset_append_right _ _))⟩
    rcases h.1 o' ho' with hmem | hheld
    · rcases List.mem_cons.mp hmem with rfl | hmem
      · exact .inr ho
      · exact .inl hmem
    · exact .inr hheld

theorem of_mem {code : List Instr} {defs : List (Nat × Ty)} (h : ReadsInOrder c outer defs code)
    {i : Instr} (hi : i ∈ code) : MayRead c outer (defsOf code ++ defs) i.usedOperands := by
  induction code generalizing defs with
  | nil => cases hi
  | cons j rest ih =>
    rw [defsOf_cons]
    rcases List.mem_cons.mp hi with rfl | hi
    · exact h.1.mono (List.Subset.refl _) (List.subset_append_right _ _)
    · refine (ih h.2 hi).mono (List.Subset.refl _) fun x hx => ?_
      simp only [List.mem_append] at hx ⊢
      rcases hx with hx | hx | hx
      · exact .inl (.inr hx)
      · exact .inl (.inl hx)
      · exact .inr hx

end ReadsInOrder

theorem Code.results_held (h : Code c Φ outer k code os k') : ∀ o ∈ os, Held c (defsOf code) o := by
  induction h with
  | nil => exact fun _ h => nomatch h
  | free ho => exact List.forall_mem_singleton.mpr (.of_free ho)
  | append _ _ iha ihb =>
    rw [defsOf_append]
    exact List.forall_mem_append.mpr
      ⟨fun o ho => (iha o ho).mono (List.subset_append_left _ _),
        fun o ho => (ihb o ho).mono (List.subset_append_right _ _)⟩
  | weaken _ hos ih => exact fun o ho => ih o (hos ho)
  | compute _ _ _ ih =>
    rw [defsOf_append]
    exact List.forall_mem_cons.mpr ⟨List.mem_append_right _ List.mem_cons_self,
      fun o ho => (ih o ho).mono (List.subset_append_left _ _)⟩
  | effect _ _ _ _ ih =>
    rw [defsOf_append]
    exact fun o ho => (ih o ho).mono (List.subset_append_left _ _)
  | array => exact List.forall_mem_singleton.mpr List.mem_cons_self
  | and | or =>
    refine List.forall_mem_singleton.mpr ?_
    simp only [Held, defsOf_append, defsOf_condGoto, defsOf_assignVar, defsOf_goto, defsOf_label,
      defsOf_nil, List.mem_append, List.mem_cons, true_or, or_true]
  | branch | loop => exact fun _ h => nomatch h

theorem Code.mayRead (h : Code c Φ outer k code os k') {rs : List Operand}
    (hreads : ∀ o ∈ rs, o ∈ os ∨ o ∈ outer ∨ Free c o) (defs : List (Nat × Ty)) :
    MayRead c outer (defsOf code ++ defs) rs := by
  intro o ho
  rcases hreads o ho with hos | houter | hfree
  · exact .inr ((h.results_held o hos).mono (List.subset_append_left _ _))
  · exact .inl houter
  · exact .inr (.of_free hfree)

/-- In the order of its text lowered code reads only what is assigned. -/
theorem Code.readsInOrder (h : Code c Φ outer k code os k') : ReadsInOrder c outer [] code := by
  have hnone : ∀ {outer defs} {i : Instr}, i.usedOperands = [] → MayRead c outer defs i.usedOperands :=
    fun h o ho => by rw [h] at ho; cases ho
  have hskip : ∀ {outer defs} {i : Instr} (returns : Bool), i.usedOperands = [] →
      ReadsInOrder c outer defs (if returns then [] else [i]) := by
    intro outer defs i returns h
    cases returns
    · exact .single (hnone h)
    · trivial
  have hlift : ∀ {outer defs code}, ReadsInOrder c outer [] code → ReadsInOrder c outer defs code :=
    fun h => h.mono (List.Subset.refl _) (List.nil_subset _)
  induction h with
  | nil | free => trivial
  | append _ _ iha ihb => exact iha.append (hlift ihb)
  | weaken _ _ ih => exact ih
  | compute h hreads _ ih => exact ih.append (.single (h.mayRead hreads _))
  | effect h _ hreads _ ih => exact ih.append (.single (h.mayRead hreads _))
  | array hreads _ _ ih =>
    refine ⟨fun o ho => .inr (.of_free (hreads o ho)), ?_⟩
    exact (hlift ih).of_held List.mem_cons_self
  | and ha htest hb hvalue _ iha ihb =>
    have hb' := hb.results_held _ hvalue
    refine ReadsInOrder.append (ReadsInOrder.append (iha.append ⟨?_, ?_, hnone rfl, hnone rfl,
      trivial⟩) (hlift ihb)) ⟨?_, hnone rfl, trivial⟩
    · exact ha.mayRead (fun o ho => .inl (by rwa [List.mem_singleton.mp ho])) _
    · exact fun o ho => .inr (by rw [List.mem_singleton.mp ho]; trivial)
    · refine fun o ho => .inr ?_
      rw [List.mem_singleton.mp ho, defsOf_append]
      exact hb'.mono fun x hx => List.mem_append_left _ (List.mem_append_right _ hx)
  | or ha htest hb hvalue _ iha ihb =>
    have hb' := hb.results_held _ hvalue
    refine ReadsInOrder.append (ReadsInOrder.append (iha.append ⟨?_, trivial⟩) (hlift ihb))
      ⟨?_, hnone rfl, hnone rfl, ?_, hnone rfl, trivial⟩
    · exact ha.mayRead (fun o ho => .inl (by rwa [List.mem_singleton.mp ho])) _
    · refine fun o ho => .inr ?_
      rw [List.mem_singleton.mp ho, defsOf_append]
      exact hb'.mono fun x hx => List.mem_append_left _ (List.mem_append_right _ hx)
    · exact fun o ho => .inr (by rw [List.mem_singleton.mp ho]; trivial)
  | @branch _ _ _ _ _ _ _ _ _ _ returns htest hreads _ _ _ _ ihtest ihb iha =>
    exact ReadsInOrder.append (ReadsInOrder.append (ReadsInOrder.append (ReadsInOrder.append
      (ReadsInOrder.append (ihtest.append (.single (htest.mayRead hreads _))) (hlift ihb))
      (hskip returns rfl)) (.single (hnone rfl))) (hlift iha)) (hskip returns rfl)
  | loop hbody htest hreads _ ihbody ihtest =>
    refine ReadsInOrder.append (ReadsInOrder.append (ReadsInOrder.append (ReadsInOrder.append
      ⟨hnone rfl, hnone rfl, trivial⟩ (hlift ihbody)) (.single (hnone rfl))) (hlift ihtest))
      (.single ?_)
    rw [defsOf_append]
    exact (htest.mayRead hreads []).mono (List.Subset.refl _)
      (by rw [List.append_nil]; exact fun x hx => List.mem_append_left _ (List.mem_append_right _ hx))

theorem Code.reads_held (h : Code c Φ [] k code os k') {i : Instr} (hi : i ∈ code) {o : Operand}
    (ho : o ∈ i.usedOperands) : Held c (defsOf code) o := by
  have hread := h.readsInOrder.of_mem hi o ho
  rw [List.append_nil] at hread
  exact hread.resolve_left List.not_mem_nil

/-! ## Paths -/

/-- A path counts the temporaries that were assigned on it. -/
def countAssigned (i : Instr) (assigned : List Nat) : List Nat :=
  i.definedTemp?.toList ++ assigned

/-- An instruction reads only temporaries that were assigned on the path to it. -/
def ReadsAssigned (i : Instr) (assigned : List Nat) : Prop :=
  ∀ id ty, .temp id ty ∈ i.usedOperands → id ∈ assigned

/-- All temporaries among some operands were assigned. -/
def Assigned (os : List Operand) (assigned : List Nat) : Prop :=
  ∀ id ty, .temp id ty ∈ os → id ∈ assigned

theorem Assigned.mono {os os' : List Operand} {assigned : List Nat} (h : Assigned os assigned)
    (hos : os' ⊆ os) : Assigned os' assigned :=
  fun id ty hid => h id ty (hos hid)

theorem Assigned.reads {outer' rs : List Operand} {assigned : List Nat}
    (h : Assigned (os ++ outer') assigned) (houter : outer ⊆ outer')
    (hreads : ∀ o ∈ rs, o ∈ os ∨ o ∈ outer ∨ Free c o) : Assigned rs assigned := by
  intro id ty hid
  rcases hreads _ hid with hos | hout | hfree
  · exact h id ty (List.mem_append_left _ hos)
  · exact h id ty (List.mem_append_right _ (houter hout))
  · exact hfree.elim

theorem Assigned.assign {os : List Operand} {assigned : List Nat} (h : Assigned os assigned)
    {id : Nat} {ty : Ty} {value : Ir.Value} :
    Assigned (.temp id ty :: os) (countAssigned (.assignVar (.temp id ty) value) assigned) := by
  intro id' ty' hid
  rcases List.mem_cons.mp hid with heq | hid
  · cases heq
    exact List.mem_cons_self
  · exact List.mem_cons_of_mem _ (h id' ty' hid)

theorem Assigned.pass {os : List Operand} {assigned : List Nat} (h : Assigned os assigned)
    {i : Instr} (hi : i.definedVar? = none) : Assigned os (countAssigned i assigned) := by
  rw [countAssigned, Instr.definedTemp?, hi]
  exact h

/-- Code that reads only what was assigned, given that some operands are in front of it. Others are
behind it. -/
def AssignsFirst (marks : Label → (List Nat → Prop) → Prop) (outer : List Operand)
    (code : List Instr) (os : List Operand) : Prop :=
  Verified countAssigned ReadsAssigned marks (Assigned outer) code (Assigned os)

namespace AssignsFirst

variable {marks : Label → (List Nat → Prop) → Prop} {os' : List Operand} {a b : List Instr}

theorem append (ha : AssignsFirst marks outer a os) (hb : AssignsFirst marks os b os') :
    AssignsFirst marks outer (a ++ b) os' :=
  Verified.append ha hb

theorem mono {marks' : Label → (List Nat → Prop) → Prop} (h : AssignsFirst marks outer code os)
    (hmarks : ∀ l A, marks l A → marks' l A) : AssignsFirst marks' outer code os :=
  Verified.mono h hmarks

theorem weaken (h : AssignsFirst marks outer code os) (hos : os' ⊆ os) :
    AssignsFirst marks outer code os' :=
  Verified.post h fun _ h => h.mono hos

theorem assign {id : Nat} {ty : Ty} {value : Ir.Value}
    (hreads : ∀ assigned, Assigned os assigned → Assigned value.operands assigned) :
    AssignsFirst marks os [.assignVar (.temp id ty) value] (.temp id ty :: os) :=
  Verified.straight rfl rfl hreads fun _ _ h => h.assign

theorem assignConstant {id : Nat} {value : Bool} :
    AssignsFirst marks os [.assignVar (.temp id .boolean) (.operand (.bool value))]
      (.temp id .boolean :: os) :=
  assign fun _ _ _ _ h => nomatch List.mem_singleton.mp h

theorem effect {i : Instr} (hi : IsEffect i)
    (hreads : ∀ assigned, Assigned os assigned → Assigned i.usedOperands assigned) :
    AssignsFirst marks os [i] os :=
  Verified.straight hi.label hi.target hreads fun _ _ h => h.pass hi.assigns

theorem condGoto {value : Ir.Value} {l : Label} (hl : marks l (Assigned os))
    (hreads : ∀ assigned, Assigned os assigned → Assigned value.operands assigned) :
    AssignsFirst marks os [.condGoto value l] os :=
  Verified.jump rfl rfl hl hreads (fun _ h => h.pass rfl) fun _ _ h => h.pass rfl

theorem goto {l : Label} (os'' : List Operand) (hl : marks l (Assigned os')) (hos : os' ⊆ os) :
    AssignsFirst marks os [.goto l] os'' :=
  Verified.jump rfl rfl hl (fun _ _ => nofun) (fun _ h => (h.mono hos).pass rfl) nofun

theorem label {l : Label} (hl : marks l (Assigned os')) (hos : os' ⊆ os) :
    AssignsFirst marks os [.label l] os' :=
  Verified.label rfl rfl hl (fun _ _ => nofun) (fun _ h => h.mono hos) fun _ h => h.pass rfl

theorem skip {returns : Bool} {i : Instr} (h : returns = false → AssignsFirst marks os [i] os')
    (hos : os' ⊆ os) : AssignsFirst marks os (if returns then [] else [i]) os' := by
  cases returns with
  | false => exact h rfl
  | true => exact Verified.nil fun _ h => h.mono hos

variable {x y : Operand} {n id : Nat}

theorem and (hright : marks (.numbered .andRight n) (Assigned (os ++ outer)))
    (hend : marks (.numbered .andEnd n) (Assigned (.temp id .boolean :: outer)))
    (ha : AssignsFirst marks outer a (os ++ outer))
    (hb : AssignsFirst marks (os ++ outer) b (os' ++ (os ++ outer))) (hx : x ∈ os) (hy : y ∈ os') :
    AssignsFirst marks outer
      (a ++ [.condGoto (.operand x) (.numbered .andRight n),
          .assignVar (.temp id .boolean) (.operand (.bool false)), .goto (.numbered .andEnd n),
          .label (.numbered .andRight n)]
        ++ b ++ [.assignVar (.temp id .boolean) (.operand y), .label (.numbered .andEnd n)])
      (.temp id .boolean :: outer) := by
  have hreadx : ∀ assigned, Assigned (os ++ outer) assigned →
      Assigned (Ir.Value.operand x).operands assigned :=
    fun _ h => h.mono (List.cons_subset.mpr ⟨List.mem_append_left _ hx, List.nil_subset _⟩)
  have hready : ∀ assigned, Assigned (os' ++ (os ++ outer)) assigned →
      Assigned (Ir.Value.operand y).operands assigned :=
    fun _ h => h.mono (List.cons_subset.mpr ⟨List.mem_append_left _ hy, List.nil_subset _⟩)
  have hfirst : AssignsFirst marks (os ++ outer)
      [.condGoto (.operand x) (.numbered .andRight n),
        .assignVar (.temp id .boolean) (.operand (.bool false)), .goto (.numbered .andEnd n),
        .label (.numbered .andRight n)] (os ++ outer) :=
    (condGoto hright hreadx).append (assignConstant.append
      ((goto (os ++ outer) hend
        (List.cons_subset_cons _ (List.subset_append_right _ _))).append
          (label hright (List.Subset.refl _))))
  refine ((ha.append hfirst).append hb).append ((assign hready).append (label hend ?_))
  exact List.cons_subset_cons _ (List.subset_append_of_subset_right _ (List.subset_append_right _ _))

theorem or (htrue : marks (.numbered .orTrue n) (Assigned (os ++ outer)))
    (hend : marks (.numbered .orEnd n) (Assigned (.temp id .boolean :: outer)))
    (ha : AssignsFirst marks outer a (os ++ outer))
    (hb : AssignsFirst marks (os ++ outer) b (os' ++ (os ++ outer))) (hx : x ∈ os) (hy : y ∈ os') :
    AssignsFirst marks outer
      (a ++ [.condGoto (.operand x) (.numbered .orTrue n)]
        ++ b ++ [.assignVar (.temp id .boolean) (.operand y), .goto (.numbered .orEnd n),
          .label (.numbered .orTrue n), .assignVar (.temp id .boolean) (.operand (.bool true)),
          .label (.numbered .orEnd n)])
      (.temp id .boolean :: outer) := by
  have hreadx : ∀ assigned, Assigned (os ++ outer) assigned →
      Assigned (Ir.Value.operand x).operands assigned :=
    fun _ h => h.mono (List.cons_subset.mpr ⟨List.mem_append_left _ hx, List.nil_subset _⟩)
  have hready : ∀ assigned, Assigned (os' ++ (os ++ outer)) assigned →
      Assigned (Ir.Value.operand y).operands assigned :=
    fun _ h => h.mono (List.cons_subset.mpr ⟨List.mem_append_left _ hy, List.nil_subset _⟩)
  have hsub : outer ⊆ os ++ outer := List.subset_append_right _ _
  refine ((ha.append (condGoto htrue hreadx)).append hb).append ((assign hready).append
    ((goto (os ++ outer) hend ?_).append ((label htrue (List.Subset.refl _)).append
      (assignConstant.append (label hend (List.cons_subset_cons _ hsub))))))
  exact List.cons_subset_cons _ (List.subset_append_of_subset_right _ hsub)

theorem branch {test : List Instr} {value : Ir.Value} {returns : Bool}
    (hthen : marks (.numbered .thenBranch n) (Assigned (os ++ outer)))
    (hend : returns = false → marks (.numbered .endIf n) (Assigned outer))
    (htest : AssignsFirst marks outer test (os ++ outer))
    (hreads : ∀ assigned, Assigned (os ++ outer) assigned → Assigned value.operands assigned)
    (hb : AssignsFirst marks (os ++ outer) b (os ++ outer))
    (ha : AssignsFirst marks (os ++ outer) a (os ++ outer)) :
    AssignsFirst marks outer
      (test ++ [.condGoto value (.numbered .thenBranch n)] ++ b
        ++ (if returns then [] else [.goto (.numbered .endIf n)])
        ++ [.label (.numbered .thenBranch n)] ++ a
        ++ (if returns then [] else [.label (.numbered .endIf n)])) outer := by
  have hsub : outer ⊆ os ++ outer := List.subset_append_right _ _
  have hskip : AssignsFirst marks (os ++ outer)
      (if returns then [] else [.goto (.numbered .endIf n)]) (os ++ outer) :=
    skip (fun h => goto _ (hend h) hsub) (List.Subset.refl _)
  exact (((((htest.append (condGoto hthen hreads)).append hb).append hskip).append
    (label hthen (List.Subset.refl _))).append ha).append
      (skip (fun h => label (hend h) hsub) hsub)

/-- A loop leaves what was assigned in front of it, and needs no more in any iteration. -/
theorem loop {test : List Instr} {value : Ir.Value}
    (hbody : marks (.numbered .loopBody n) (Assigned outer))
    (hcondition : marks (.numbered .loopCondition n) (Assigned outer))
    (ha : AssignsFirst marks outer a outer) (htest : AssignsFirst marks outer test (os ++ outer))
    (hreads : ∀ assigned, Assigned (os ++ outer) assigned → Assigned value.operands assigned) :
    AssignsFirst marks outer
      ([.goto (.numbered .loopCondition n), .label (.numbered .loopBody n)] ++ a
        ++ [.label (.numbered .loopCondition n)] ++ test
        ++ [.condGoto value (.numbered .loopBody n)]) outer := by
  have hsub : outer ⊆ os ++ outer := List.subset_append_right _ _
  have hjump : AssignsFirst marks (os ++ outer) [.condGoto value (.numbered .loopBody n)] outer :=
    Verified.jump rfl rfl hbody hreads (fun _ h => (h.mono hsub).pass rfl)
      fun _ _ h => (h.mono hsub).pass rfl
  exact ((((goto outer hcondition (List.Subset.refl _)).append
    (label hbody (List.Subset.refl _))).append ha).append
      (label hcondition (List.Subset.refl _))).append htest |>.append hjump

end AssignsFirst

/-- On every path lowered code reads only what was assigned on it, and its results are assigned at
the end. There is an assertion for each of its labels. -/
theorem Code.assignsFirst (h : Code c Φ outer k code os k') :
    ∀ {outer' : List Operand}, outer ⊆ outer' →
      ∃ assertions : List (Label × (List Nat → Prop)), assertions.map (·.1) = labelsOf code ∧
        AssignsFirst (InList assertions) outer' code (os ++ outer') := by
  have hleft : ∀ {as bs : List (Label × (List Nat → Prop))} {l A}, InList as l A →
      InList (as ++ bs) l A := fun h => List.mem_append_left _ h
  have hright : ∀ {as bs : List (Label × (List Nat → Prop))} {l A}, InList bs l A →
      InList (as ++ bs) l A := fun h => List.mem_append_right _ h
  induction h with
  | nil => exact fun _ => ⟨[], rfl, Verified.nil fun _ h => h⟩
  | free ho =>
    intro outer' houter
    refine ⟨[], rfl, Verified.nil fun _ h id ty hid => ?_⟩
    rcases List.mem_cons.mp hid with rfl | hid
    · exact ho.elim
    · exact h id ty hid
  | append _ _ iha ihb =>
    intro outer' houter
    obtain ⟨as, has, ha⟩ := iha houter
    obtain ⟨bs, hbs, hb⟩ := ihb (List.subset_append_of_subset_right _ houter)
    refine ⟨as ++ bs, by rw [List.map_append, has, hbs, labelsOf_append], ?_⟩
    refine AssignsFirst.weaken ((ha.mono fun l A => hleft).append (hb.mono fun l A => hright)) ?_
    intro o ho
    simp only [List.mem_append] at ho ⊢
    rcases ho with (ho | ho) | ho
    · exact .inr (.inl ho)
    · exact .inl ho
    · exact .inr (.inr ho)
  | weaken _ hos ih =>
    intro outer' houter
    obtain ⟨as, has, ha⟩ := ih houter
    exact ⟨as, has, AssignsFirst.weaken ha (List.append_subset.mpr
      ⟨List.subset_append_of_subset_left _ hos, List.subset_append_right _ _⟩)⟩
  | compute _ hreads _ ih =>
    intro outer' houter
    obtain ⟨as, has, ha⟩ := ih houter
    refine ⟨as, by rw [labelsOf_append, has, labelsOf_assignVar]; simp, ?_⟩
    exact ha.append (.assign fun _ h => h.reads houter hreads)
  | effect _ hi hreads _ ih =>
    intro outer' houter
    obtain ⟨as, has, ha⟩ := ih houter
    refine ⟨as, by rw [labelsOf_append, has, hi.labelsOf]; simp, ?_⟩
    exact ha.append (.effect hi fun _ h => h.reads houter hreads)
  | array hreads _ _ ih =>
    intro outer' houter
    obtain ⟨as, has, ha⟩ := ih (List.cons_subset_cons _ houter)
    refine ⟨as, by rw [has, labelsOf_assignVar], ?_⟩
    exact ((AssignsFirst.assign fun _ _ id ty hid => (hreads _ hid).elim).append ha).weaken
      (List.subset_append_right _ _)
  | @and _ os os' _ k₁ _ _ _ _ _ _ htest _ hvalue _ iha ihb =>
    intro outer' houter
    obtain ⟨as, has, ha⟩ := iha houter
    obtain ⟨bs, hbs, hb⟩ := ihb (List.subset_append_of_subset_right os houter)
    refine ⟨as ++ [(.numbered .andRight k₁.labels, Assigned (os ++ outer'))] ++ bs
      ++ [(.numbered .andEnd k₁.labels, Assigned (.temp k₁.temps .boolean :: outer'))],
      by simp [has, hbs], ?_⟩
    exact .and (by simp [InList]) (by simp [InList]) (ha.mono fun l A h => hleft (hleft (hleft h)))
      (hb.mono fun l A h => hleft (hright h)) htest hvalue
  | @or _ os os' _ k₁ _ _ _ _ _ _ htest _ hvalue _ iha ihb =>
    intro outer' houter
    obtain ⟨as, has, ha⟩ := iha houter
    obtain ⟨bs, hbs, hb⟩ := ihb (List.subset_append_of_subset_right os houter)
    refine ⟨as ++ bs ++ [(.numbered .orTrue k₁.labels, Assigned (os ++ outer')),
        (.numbered .orEnd k₁.labels, Assigned (.temp k₁.temps .boolean :: outer'))],
      by simp [has, hbs], ?_⟩
    exact .or (by simp [InList]) (by simp [InList]) (ha.mono fun l A h => hleft (hleft h))
      (hb.mono fun l A h => hleft (hright h)) htest hvalue
  | @branch _ os k _ _ _ _ _ _ _ returns _ hreads _ _ _ _ ihtest ihb iha =>
    intro outer' houter
    obtain ⟨ts, hts, ht⟩ := ihtest houter
    obtain ⟨bs, hbs, hb⟩ := ihb (List.subset_append_of_subset_right os houter)
    obtain ⟨as, has, ha⟩ := iha (List.subset_append_of_subset_right os houter)
    let join : List (Label × (List Nat → Prop)) :=
      if returns then [] else [(.numbered .endIf k.labels, Assigned outer')]
    refine ⟨ts ++ bs ++ [(.numbered .thenBranch k.labels, Assigned (os ++ outer'))] ++ as ++ join,
      ?_, ?_⟩
    · cases returns <;> simp [join, hts, hbs, has]
    · refine .branch (by simp [InList]) (fun h => ?_)
        (ht.mono fun l A h => hleft (hleft (hleft (hleft h)))) (fun _ h => h.reads houter hreads)
        (hb.mono fun l A h => hleft (hleft (hleft (hright h))))
        (ha.mono fun l A h => hleft (hright h))
      simp [InList, join, h]
  | @loop _ os k _ _ _ _ _ _ _ hreads _ ihbody ihtest =>
    intro outer' houter
    obtain ⟨bs, hbs, hb⟩ := ihbody houter
    obtain ⟨ts, hts, ht⟩ := ihtest houter
    refine ⟨[(.numbered .loopBody k.labels, Assigned outer')] ++ bs
      ++ [(.numbered .loopCondition k.labels, Assigned outer')] ++ ts, by simp [hbs, hts], ?_⟩
    exact .loop (by simp [InList]) (by simp [InList])
      (hb.mono fun l A h => hleft (hleft (hright h))) (ht.mono fun l A => hright)
      fun _ h => h.reads houter hreads

/-- On every path to an instruction of lowered code the temporaries that it reads were assigned. -/
theorem Code.reads_assigned (h : Code c Φ [] k code os k') {n : Nat} {assigned : List Nat}
    {i : Instr} (hpath : Path countAssigned (FromStart []) code n assigned)
    (hi : code[n]? = some i) : ReadsAssigned i assigned := by
  obtain ⟨assertions, hlabels, hverified⟩ := h.assignsFirst (List.Subset.refl _)
  have hnodup : (assertions.map (·.1)).Nodup := by
    rw [hlabels]
    exact h.labels_nodup
  exact Verified.permits_of_path hverified (InList.unique hnodup) (fun _ _ => nofun) hpath hi

end MiniJava.Semantics
