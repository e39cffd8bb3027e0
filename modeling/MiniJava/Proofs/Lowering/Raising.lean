import MiniJava.Lowering.Session
import MiniJava.Proofs.Lowering.Inversion

/-!
# Numbers in lowered code

Lowering looks at the counters only to take numbers from them. So with counters that are raised by
some amounts it does the same, but for the numbers, which are raised by these amounts too; and all
numbers in its results are ones that have been given out.

Both are said by one relation between a step and the step it is compared with, which every part of
lowering keeps to.
-/

namespace MiniJava.Lowering

open Ir (Instr Operand Value Place Call)

/-! ## Numbers -/

instance : LE Counters where
  le a b := a.temps ≤ b.temps ∧ a.labels ≤ b.labels

instance : Add Counters where
  add a b := { temps := a.temps + b.temps, labels := a.labels + b.labels }

theorem Counters.le_refl (k : Counters) : k ≤ k :=
  ⟨Nat.le_refl _, Nat.le_refl _⟩

theorem Counters.le_trans {a b c : Counters} (h : a ≤ b) (h' : b ≤ c) : a ≤ c :=
  ⟨Nat.le_trans h.1 h'.1, Nat.le_trans h.2 h'.2⟩

/-- Data in which there are numbers of temporaries and of labels. -/
class HasNumbers (α : Type) where
  /-- The data with its numbers raised. -/
  raise : Counters → α → α
  /-- Whether all numbers have been given out. -/
  Below : Counters → α → Prop
  mono : ∀ {k k' : Counters} {a : α}, k ≤ k' → Below k a → Below k' a

open HasNumbers (raise Below)

section Containers

variable {α β : Type} [HasNumbers α] [HasNumbers β]

instance : HasNumbers (List α) where
  raise up := List.map (raise up)
  Below k l := ∀ a ∈ l, Below k a
  mono hle h := fun a ha => HasNumbers.mono hle (h a ha)

instance : HasNumbers (Option α) where
  raise up := Option.map (raise up)
  Below k o := ∀ a ∈ o, Below k a
  mono hle h := fun a ha => HasNumbers.mono hle (h a ha)

instance : HasNumbers (α × β) where
  raise up p := (raise up p.1, raise up p.2)
  Below k p := Below k p.1 ∧ Below k p.2
  mono hle h := ⟨HasNumbers.mono hle h.1, HasNumbers.mono hle h.2⟩

variable {up k : Counters}

@[simp] theorem raise_nil : raise up ([] : List α) = [] := rfl

@[simp] theorem raise_cons (a : α) (l : List α) : raise up (a :: l) = raise up a :: raise up l := rfl

@[simp] theorem raise_append (a b : List α) : raise up (a ++ b) = raise up a ++ raise up b :=
  List.map_append

@[simp] theorem below_nil : Below k ([] : List α) := nofun

@[simp] theorem below_cons {a : α} {l : List α} : Below k (a :: l) ↔ Below k a ∧ Below k l :=
  List.forall_mem_cons

@[simp] theorem below_append {a b : List α} : Below k (a ++ b) ↔ Below k a ∧ Below k b :=
  List.forall_mem_append

@[simp] theorem raise_none : raise up (none : Option α) = none := rfl

@[simp] theorem raise_some (a : α) : raise up (some a) = some (raise up a) := rfl

@[simp] theorem below_none : Below k (none : Option α) := nofun

@[simp] theorem below_some {a : α} : Below k (some a) ↔ Below k a :=
  ⟨fun h => h a rfl, fun h _ ha => Option.some.inj ha ▸ h⟩

@[simp] theorem raise_pair (a : α) (b : β) : raise up (a, b) = (raise up a, raise up b) := rfl

@[simp] theorem below_pair {a : α} {b : β} : Below k (a, b) ↔ Below k a ∧ Below k b := Iff.rfl

end Containers

instance : HasNumbers Label where
  raise up
    | .named name => .named name
    | .numbered role n => .numbered role (n + up.labels)
  Below k
    | .named _ => False
    | .numbered _ n => n < k.labels
  mono {k k' l} hle h := by
    cases l with
    | named => exact h
    | numbered role n => exact Nat.lt_of_lt_of_le h hle.2

/-- A number on its own is one for labels. -/
instance : HasNumbers Nat where
  raise up n := n + up.labels
  Below k n := n < k.labels
  mono hle h := Nat.lt_of_lt_of_le h hle.2

instance : HasNumbers Operand where
  raise up
    | .temp id ty => .temp (id + up.temps) ty
    | o => o
  Below k
    | .temp id _ => id < k.temps
    | _ => True
  mono {k k' o} hle h := by
    cases o with
    | temp id ty => exact Nat.lt_of_lt_of_le h hle.1
    | _ => trivial

instance : HasNumbers Call where
  raise up c := { c with target := raise up c.target, args := raise up c.args }
  Below k c := Below k c.target ∧ Below k c.args
  mono hle h := ⟨HasNumbers.mono hle h.1, HasNumbers.mono hle h.2⟩

instance : HasNumbers Value where
  raise up
    | .operand o => .operand (raise up o)
    | .binary op left right => .binary op (raise up left) (raise up right)
    | .not o => .not (raise up o)
    | .getField object field ty => .getField (raise up object) field ty
    | .arrayLoad array index ty => .arrayLoad (raise up array) (raise up index) ty
    | .call call => .call (raise up call)
  Below k
    | .operand o | .not o | .getField o _ _ => Below k o
    | .binary _ o o' | .arrayLoad o o' _ => Below k o ∧ Below k o'
    | .call call => Below k call
  mono {k k' v} hle h := by
    cases v with
    | operand | not | getField | call => exact HasNumbers.mono hle h
    | binary | arrayLoad => exact ⟨HasNumbers.mono hle h.1, HasNumbers.mono hle h.2⟩

instance : HasNumbers Place where
  raise up
    | .var o => .var (raise up o)
    | .element array index ty => .element (raise up array) (raise up index) ty
  Below k
    | .var o => Below k o
    | .element array index _ => Below k array ∧ Below k index
  mono {k k' p} hle h := by
    cases p with
    | var => exact HasNumbers.mono hle h
    | element => exact ⟨HasNumbers.mono hle h.1, HasNumbers.mono hle h.2⟩

instance : HasNumbers Instr where
  raise up
    | .assign dest value => .assign (raise up dest) (raise up value)
    | .putField object field value => .putField (raise up object) field (raise up value)
    | .call call => .call (raise up call)
    | .label l => .label (raise up l)
    | .goto l => .goto (raise up l)
    | .condGoto condition l => .condGoto (raise up condition) (raise up l)
    | .ret value => .ret (raise up value)
  Below k
    | .assign dest value => Below k dest ∧ Below k value
    | .putField object _ value => Below k object ∧ Below k value
    | .call call => Below k call
    | .label l | .goto l => Below k l
    | .condGoto condition l => Below k condition ∧ Below k l
    | .ret value => Below k value
  mono {k k' i} hle h := by
    cases i with
    | assign | putField | condGoto => exact ⟨HasNumbers.mono hle h.1, HasNumbers.mono hle h.2⟩
    | call | label | goto | ret => exact HasNumbers.mono hle h

instance : HasNumbers Lowered where
  raise up l := { code := raise up l.code, operand := raise up l.operand }
  Below k l := Below k l.code ∧ Below k l.operand
  mono hle h := ⟨HasNumbers.mono hle h.1, HasNumbers.mono hle h.2⟩

instance : HasNumbers Arguments where
  raise up a := { code := raise up a.code, operands := raise up a.operands,
                  packed := raise up a.packed }
  Below k a := Below k a.code ∧ Below k a.operands ∧ Below k a.packed
  mono hle h :=
    ⟨HasNumbers.mono hle h.1, HasNumbers.mono hle h.2.1, HasNumbers.mono hle h.2.2⟩

section Instructions

variable {k : Counters} {l : Label} {o o' : Operand} {value : Value}

@[simp] theorem below_numbered {role : LabelRole} {n : Nat} :
    Below k (Label.numbered role n) ↔ n < k.labels := Iff.rfl

@[simp] theorem below_literal {value : Literal} : Below k (Operand.literal value) := trivial

@[simp] theorem below_operand : Below k (Value.operand o) ↔ Below k o := Iff.rfl

@[simp] theorem below_assignVar : Below k (Instr.assignVar o value) ↔ Below k o ∧ Below k value :=
  Iff.rfl

@[simp] theorem below_element {array index : Operand} {ty : Ty} :
    Below k (Instr.assign (.element array index ty) value) ↔
      (Below k array ∧ Below k index) ∧ Below k value := Iff.rfl

@[simp] theorem below_putField {field : String} :
    Below k (Instr.putField o field o') ↔ Below k o ∧ Below k o' := Iff.rfl

@[simp] theorem below_condGoto : Below k (Instr.condGoto value l) ↔ Below k value ∧ Below k l :=
  Iff.rfl

@[simp] theorem below_goto : Below k (Instr.goto l) ↔ Below k l := Iff.rfl

@[simp] theorem below_label : Below k (Instr.label l) ↔ Below k l := Iff.rfl

@[simp] theorem below_ret {value : Option Operand} : Below k (Instr.ret value) ↔ Below k value :=
  Iff.rfl

end Instructions

section Operands

variable {up : Counters}

@[simp] theorem ty_raise (o : Operand) : (raise up o).ty = o.ty := by
  cases o <;> rfl

theorem isOwn_raise (sc : Scope) (o : Operand) : sc.isOwn (raise up o) = sc.isOwn o := by
  cases o <;> rfl

theorem ownSignature_raise (sc : Scope) (o : Operand) (method : String) :
    sc.ownSignature? (raise up o) method = sc.ownSignature? o method := by
  rw [Scope.ownSignature?, isOwn_raise]
  rfl

theorem require_raise (l : Lowered) (role : OperandRole) :
    (raise up l).require role = (l.require role).map (raise up) := by
  obtain ⟨code, operand⟩ := l
  cases operand <;> rfl

theorem require_below {l : Lowered} {role : OperandRole} {o : Operand} {k : Counters}
    (hl : Below k l) (ho : l.require role = .ok o) : Below k o := by
  obtain ⟨code, operand⟩ := l
  cases operand with
  | none => cases ho
  | some o' =>
    cases ho
    exact hl.2 _ rfl

theorem elementTy_raise (name : String) (o : Operand) :
    elementTy name (raise up o) = elementTy name o := by
  rw [elementTy, elementTy, ty_raise]

end Operands

/-! ## Steps at raised counters -/

/-- At raised counters one step does what another one does, its numbers raised. The numbers in the
result of the latter have been given out, and none is taken back. -/
structure Follows {α : Type} [HasNumbers α] (up k : Counters) (x y : Lower α) : Prop where
  le : k ≤ ((x.run).run k).2
  below : ∀ a, ((x.run).run k).1 = .ok a → Below ((x.run).run k).2 a
  run : (y.run).run (k + up) = (((x.run).run k).1.map (raise up), ((x.run).run k).2 + up)

/-- A step that does not depend on the counters but for its numbers. -/
abbrev Steady {α : Type} [HasNumbers α] (x : Lower α) : Prop :=
  ∀ up k, Follows up k x x

namespace Follows

variable {α β γ : Type} [HasNumbers α] [HasNumbers β] {up k : Counters}

theorem pure {a b : α} (h : Below k a) (hb : b = raise up a) :
    Follows up k (Pure.pure a : Lower α) (Pure.pure b) := by
  subst hb
  refine ⟨Counters.le_refl k, fun a' ha => ?_, rfl⟩
  cases ha
  exact h

theorem throw (e : CompileError) : Follows up k (throw e : Lower α) (throw e) :=
  ⟨Counters.le_refl k, nofun, rfl⟩

theorem bind_of_gives {x y : Lower α} {f g : α → Lower β} (h : Follows up k x y)
    (hf : ∀ a k', Gives x k a k' → k ≤ k' → Below k' a →
      Follows up k' (f a) (g (raise up a))) : Follows up k (x >>= f) (y >>= g) := by
  obtain ⟨hle, hbelow, hrun⟩ := h
  cases hx : (x.run).run k with
  | mk r t =>
    rw [hx] at hle hbelow hrun
    cases r with
    | error e =>
      have hfx : ((x >>= f).run).run k = (.error e, t) := by rw [run_bind, hx]
      refine ⟨?_, ?_, ?_⟩
      · rw [hfx]
        exact hle
      · rw [hfx]
        exact nofun
      · rw [run_bind, hrun, hfx]
        rfl
    | ok a =>
      have hfx : ((x >>= f).run).run k = ((f a).run).run t := by rw [run_bind, hx]
      have hnext := hf a t hx hle (hbelow a rfl)
      refine ⟨?_, ?_, ?_⟩
      · rw [hfx]
        exact Counters.le_trans hle hnext.le
      · rw [hfx]
        exact hnext.below
      · rw [run_bind, hrun, hfx]
        exact hnext.run

theorem bind {x y : Lower α} {f g : α → Lower β} (h : Follows up k x y)
    (hf : ∀ a k', k ≤ k' → Below k' a → Follows up k' (f a) (g (raise up a))) :
    Follows up k (x >>= f) (y >>= g) :=
  h.bind_of_gives fun a k' _ => hf a k'

theorem lift_bind {x : Except CompileError γ} {f g : γ → Lower β}
    (hf : ∀ c, x = .ok c → Follows up k (f c) (g c)) :
    Follows up k ((liftM x : Lower γ) >>= f) ((liftM x : Lower γ) >>= g) := by
  cases x with
  | error e => exact throw e
  | ok c => exact hf c rfl

theorem lift_map_bind {x y : Except CompileError α} {f g : α → Lower β} (hy : y = x.map (raise up))
    (hbelow : ∀ a, x = .ok a → Below k a)
    (hf : ∀ a, x = .ok a → Below k a → Follows up k (f a) (g (raise up a))) :
    Follows up k ((liftM x : Lower α) >>= f) ((liftM y : Lower α) >>= g) := by
  subst hy
  cases x with
  | error e => exact throw e
  | ok a => exact hf a rfl (hbelow a rfl)

theorem require_bind {l : Lowered} {role : OperandRole} {f g : Operand → Lower β} (hl : Below k l)
    (hf : ∀ o, Below k o → Follows up k (f o) (g (raise up o))) :
    Follows up k ((liftM (l.require role) : Lower Operand) >>= f)
      ((liftM ((raise up l).require role) : Lower Operand) >>= g) :=
  lift_map_bind (require_raise l role) (fun _ ho => require_below hl ho) fun o _ ho => hf o ho

theorem receiver_bind {sc : Scope} {use : ReceiverUse} {f g : Operand → Lower β}
    (hf : ∀ o, Below k o → raise up o = o → Follows up k (f o) (g o)) :
    Follows up k ((liftM (sc.receiver use) : Lower Operand) >>= f)
      ((liftM (sc.receiver use) : Lower Operand) >>= g) := by
  refine lift_bind fun o ho => ?_
  obtain ⟨m, _, ho⟩ := except_bind ho
  split at ho
  · cases ho
  · cases ho
    exact hf _ trivial rfl

end Follows

section Parts

variable {up k : Counters}

theorem follows_freshTemp (ty : Ty) : Follows up k (freshTemp ty) (freshTemp ty) := by
  refine ⟨⟨Nat.le_succ _, Nat.le_refl _⟩, fun o ho => ?_, ?_⟩
  · cases ho
    exact Nat.lt_succ_self k.temps
  · refine Prod.ext rfl ?_
    show ({ temps := k.temps + up.temps + 1, labels := k.labels + up.labels } : Counters) =
      { temps := k.temps + 1 + up.temps, labels := k.labels + up.labels }
    rw [Nat.add_right_comm]

theorem follows_freshLabel : Follows up k freshLabel freshLabel := by
  refine ⟨⟨Nat.le_refl _, Nat.le_succ _⟩, fun n hn => ?_, ?_⟩
  · cases hn
    exact Nat.lt_succ_self k.labels
  · refine Prod.ext rfl ?_
    show ({ temps := k.temps + up.temps, labels := k.labels + up.labels + 1 } : Counters) =
      { temps := k.temps + up.temps, labels := k.labels + 1 + up.labels }
    rw [Nat.add_right_comm]

theorem follows_compute {code code' : List Instr} {ty : Ty} {value value' : Value}
    (hcode : Below k code) (hvalue : Below k value) (hcode' : code' = raise up code)
    (hvalue' : value' = raise up value) :
    Follows up k (compute code ty value) (compute code' ty value') := by
  subst hcode' hvalue'
  refine (follows_freshTemp ty).bind fun dest k' hle hdest => .pure ⟨?_, ?_⟩ ?_
  · exact below_append.mpr ⟨HasNumbers.mono hle hcode,
      below_cons.mpr ⟨⟨hdest, HasNumbers.mono hle hvalue⟩, below_nil⟩⟩
  · exact below_some.mpr hdest
  · show Lowered.mk _ _ = Lowered.mk _ _
    rw [raise_append]
    rfl

/-! ## Expressions -/

variable {x y : Lower Lowered}

theorem steady_lowerVar (sc : Scope) (name : String) : Steady (lowerVar sc name) := by
  intro up k
  refine .lift_bind fun binding _ => ?_
  match binding with
  | .variable ty => exact .pure ⟨below_nil, below_some.mpr trivial⟩ rfl
  | .field ty =>
    refine .receiver_bind fun object hobject hraise => ?_
    exact follows_compute below_nil hobject rfl (congrArg (Value.getField · name ty) hraise.symm)
  | .className name => exact .throw _

theorem steady_lowerBinary (op : Ir.BinOp) (hx : Steady x) (hy : Steady y) :
    Steady (lowerBinary op x y) := by
  intro up k
  refine (hx up k).bind fun l k₁ _ hl => (hy up k₁).bind fun r k₂ hle hr => ?_
  replace hl : Below k₂ l := HasNumbers.mono hle hl
  refine .require_bind hl fun o ho => .require_bind hr fun o' ho' => ?_
  exact follows_compute (below_append.mpr ⟨hl.1, hr.1⟩) ⟨ho, ho'⟩ (raise_append _ _).symm rfl

theorem steady_lowerAnd (decided : Option Bool) (hx : Steady x) (hy : Steady y) :
    Steady (lowerAnd decided x y) := by
  intro up k
  match decided with
  | some true => exact hy up k
  | some false => exact .pure ⟨below_nil, below_some.mpr trivial⟩ rfl
  | none =>
    refine (hx up k).bind fun l k₁ _ hl => .require_bind hl fun test htest =>
      follows_freshLabel.bind fun n k₂ hle₂ hn => (follows_freshTemp _).bind fun result k₃ hle₃ hresult =>
      (hy up k₃).bind fun r k₄ hle₄ hr => .require_bind hr fun value hvalue => .pure ?_ ?_
    · have hle := Counters.le_trans hle₂ (Counters.le_trans hle₃ hle₄)
      have hlabel : n < k₄.labels := HasNumbers.mono (Counters.le_trans hle₃ hle₄) hn
      replace hl := HasNumbers.mono hle hl
      replace htest := HasNumbers.mono hle htest
      replace hresult := HasNumbers.mono hle₄ hresult
      refine ⟨?_, below_some.mpr hresult⟩
      simp only [below_append, below_cons, below_nil, below_condGoto, below_assignVar, below_goto,
        below_label, below_operand, below_numbered, and_true]
      exact ⟨⟨⟨hl.1, ⟨htest, hlabel⟩, ⟨hresult, trivial⟩, hlabel, hlabel⟩, hr.1⟩,
        ⟨hresult, hvalue⟩, hlabel⟩
    · show Lowered.mk _ _ = Lowered.mk _ _
      simp only [raise_append]
      rfl

theorem steady_lowerOr (decided : Option Bool) (hx : Steady x) (hy : Steady y) :
    Steady (lowerOr decided x y) := by
  intro up k
  match decided with
  | some false => exact hy up k
  | some true => exact .pure ⟨below_nil, below_some.mpr trivial⟩ rfl
  | none =>
    refine (hx up k).bind fun l k₁ _ hl => .require_bind hl fun test htest =>
      follows_freshLabel.bind fun n k₂ hle₂ hn => (follows_freshTemp _).bind fun result k₃ hle₃ hresult =>
      (hy up k₃).bind fun r k₄ hle₄ hr => .require_bind hr fun value hvalue => .pure ?_ ?_
    · have hle := Counters.le_trans hle₂ (Counters.le_trans hle₃ hle₄)
      have hlabel : n < k₄.labels := HasNumbers.mono (Counters.le_trans hle₃ hle₄) hn
      replace hl := HasNumbers.mono hle hl
      replace htest := HasNumbers.mono hle htest
      replace hresult := HasNumbers.mono hle₄ hresult
      refine ⟨?_, below_some.mpr hresult⟩
      simp only [below_append, below_cons, below_nil, below_condGoto, below_assignVar, below_goto,
        below_label, below_operand, below_numbered, and_true]
      exact ⟨⟨⟨hl.1, htest, hlabel⟩, hr.1⟩, ⟨hresult, hvalue⟩, hlabel, hlabel,
        ⟨hresult, trivial⟩, hlabel⟩
    · show Lowered.mk _ _ = Lowered.mk _ _
      simp only [raise_append]
      rfl

theorem steady_lowerNot (hx : Steady x) : Steady (lowerNot x) := by
  intro up k
  exact (hx up k).bind fun l k₁ _ hl => .require_bind hl fun o ho =>
    follows_compute hl.1 ho rfl rfl

theorem steady_lowerNewArray (element : Ty) (hx : Steady x) : Steady (lowerNewArray element x) := by
  intro up k
  exact (hx up k).bind fun l k₁ _ hl => .require_bind hl fun o ho =>
    follows_compute hl.1 ⟨trivial, below_cons.mpr ⟨ho, below_nil⟩⟩ rfl rfl

theorem steady_lowerIndex (name : String) (hx : Steady x) (hy : Steady y) :
    Steady (lowerIndex name x y) := by
  intro up k
  refine (hx up k).bind fun l k₁ _ hl => .require_bind hl fun o ho => ?_
  rw [elementTy_raise]
  refine .lift_bind fun element _ => (hy up k₁).bind fun r k₂ hle hr => .require_bind hr fun o' ho' => ?_
  replace hl := HasNumbers.mono hle hl
  exact follows_compute (below_append.mpr ⟨hl.1, hr.1⟩) ⟨HasNumbers.mono hle ho, ho'⟩
    (raise_append _ _).symm rfl

theorem steady_lowerLength (name : String) (hx : Steady x) : Steady (lowerLength name x) := by
  intro up k
  refine (hx up k).bind fun l k₁ _ hl => .require_bind hl fun o ho => ?_
  rw [elementTy_raise]
  exact .lift_bind fun _ _ => follows_compute hl.1 ⟨ho, below_nil⟩ rfl rfl

theorem steady_lowerNewObject (className : String) : Steady (lowerNewObject className) := by
  intro up k
  refine (follows_freshTemp _).bind fun dest k₁ _ hdest => .pure ⟨?_, below_some.mpr hdest⟩ rfl
  exact below_cons.mpr ⟨⟨hdest, trivial, below_nil⟩, below_cons.mpr ⟨⟨hdest, below_nil⟩, below_nil⟩⟩

/-! ## Arrays -/

theorem storeItems_raise (array : Operand) (element : Ty) : ∀ (index : Nat) (items : List Lowered),
    storeItems (raise up array) element index (raise up items) =
      (storeItems array element index items).map (raise up)
  | _, [] => rfl
  | index, item :: rest => by
    rw [raise_cons, storeItems, storeItems, require_raise, storeItems_raise array element (index + 1) rest]
    cases item.require .arrayElement with
    | error e => rfl
    | ok value =>
      cases storeItems array element (index + 1) rest with
      | error e => rfl
      | ok stores =>
        show Except.ok _ = Except.ok _
        rw [raise_append]
        rfl

theorem storeItems_below {array : Operand} {element : Ty} (harray : Below k array) :
    ∀ {index : Nat} {items : List Lowered} {stores : List Instr}, Below k items →
      storeItems array element index items = .ok stores → Below k stores
  | _, [], stores, _, h => by
    cases h
    exact below_nil
  | index, item :: rest, stores, hitems, h => by
    obtain ⟨hitem, hrest⟩ := below_cons.mp hitems
    obtain ⟨value, hvalue, h⟩ := except_bind h
    obtain ⟨more, hmore, h⟩ := except_bind h
    cases h
    refine below_append.mpr ⟨hitem.1, below_cons.mpr ⟨⟨⟨harray, trivial⟩, ?_⟩, ?_⟩⟩
    · exact require_below hitem hvalue
    · exact storeItems_below harray hrest hmore

theorem follows_packArray (element : Ty) {items : List Lowered} (hitems : Below k items) :
    Follows up k (packArray element items) (packArray element (raise up items)) := by
  have hlength : (raise up items).length = items.length := List.length_map _
  rw [packArray, packArray, hlength]
  by_cases hlong : 2147483648 ≤ items.length
  · simp only [hlong, if_true]
    exact .throw _
  · simp only [hlong, if_false]
    refine (follows_freshTemp _).bind fun array k₁ hle harray => ?_
    replace hitems := HasNumbers.mono hle hitems
    refine .lift_map_bind (storeItems_raise array element 0 items)
      (fun stores hstores => storeItems_below harray hitems hstores) fun stores _ hstores => ?_
    refine .pure ⟨below_cons.mpr ⟨⟨harray, trivial, ?_⟩, hstores⟩, below_some.mpr harray⟩ rfl
    exact below_cons.mpr ⟨trivial, below_nil⟩

theorem literalElementTy_raise (hint : Option Ty) (items : List Lowered) :
    literalElementTy hint (raise up items) = literalElementTy hint items := by
  match items with
  | [] => rfl
  | { code, operand := none } :: rest => rfl
  | { code, operand := some o } :: rest => exact ty_raise o

/-! ## Calls -/

theorem steady_lowerTarget (sc : Scope) (target : Expr) (hx : Steady x) :
    Steady (lowerTarget sc target x) := by
  intro up k
  rw [lowerTarget.eq_def]
  cases target with
  | var name =>
    refine .lift_bind fun binding _ => ?_
    match binding with
    | .className name => exact .pure ⟨below_nil, trivial⟩ rfl
    | .variable _ | .field _ =>
      exact (steady_lowerVar sc name up k).bind fun l k₁ _ hl => .require_bind hl fun o ho =>
        .pure ⟨hl.1, ho⟩ rfl
  | _ =>
    exact (hx up k).bind fun l k₁ _ hl => .require_bind hl fun o ho => .pure ⟨hl.1, ho⟩ rfl

theorem steady_cons (formals : Formals) {rest : Lower Arguments} (hx : Steady x)
    (hrest : Steady rest) : Steady (Arguments.cons formals x rest) := by
  intro up k
  refine (hx up k).bind fun a k₁ _ ha => ?_
  by_cases hpacked : formals.isPacked
  · simp only [hpacked, if_true]
    refine (hrest up k₁).bind fun r k₂ hle hr => .pure ⟨hr.1, hr.2.1, ?_⟩ rfl
    exact below_cons.mpr ⟨HasNumbers.mono hle ha, hr.2.2⟩
  · simp only [hpacked, Bool.false_eq_true, if_false]
    refine .require_bind ha fun o ho => (hrest up k₁).bind fun r k₂ hle hr => .pure ⟨?_, ?_, hr.2.2⟩ ?_
    · exact below_append.mpr ⟨(HasNumbers.mono hle ha : Below k₂ a).1, hr.1⟩
    · exact below_cons.mpr ⟨HasNumbers.mono hle ho, hr.2.1⟩
    · show Arguments.mk _ _ _ = Arguments.mk _ _ _
      rw [raise_append]
      rfl

theorem follows_packArguments (array element : Ty) {items : List Lowered} (hitems : Below k items) :
    Follows up k (packArguments array element items) (packArguments array element (raise up items)) := by
  match items with
  | [] => exact follows_packArray element hitems
  | [single] =>
    have hty : (raise up single).operand.map (·.ty) = single.operand.map (·.ty) := by
      obtain ⟨code, operand⟩ := single
      cases operand with
      | none => rfl
      | some o => exact congrArg some (ty_raise o)
    show Follows up k (packArguments array element [single])
      (packArguments array element [raise up single])
    rw [packArguments, packArguments, hty]
    by_cases halone : single.operand.map (·.ty) = some array
    · rw [if_pos halone, if_pos halone]
      exact .pure (below_cons.mp hitems).1 rfl
    · rw [if_neg halone, if_neg halone]
      exact follows_packArray element hitems
  | first :: second :: rest => exact follows_packArray element hitems

theorem follows_close (formals : Formals) {args : Arguments} (hargs : Below k args) :
    Follows up k (args.close formals) ((raise up args).close formals) := by
  match formals with
  | .plain tys => exact .pure ⟨hargs.1, hargs.2.1⟩ rfl
  | .varargs tys array =>
    refine (follows_packArguments array _ hargs.2.2).bind fun packed k₁ hle hpacked =>
      .require_bind hpacked fun o ho => .pure ⟨?_, ?_⟩ ?_
    · exact below_append.mpr ⟨HasNumbers.mono hle hargs.1, hpacked.1⟩
    · exact below_append.mpr ⟨HasNumbers.mono hle hargs.2.1, below_cons.mpr ⟨ho, below_nil⟩⟩
    · rw [raise_pair, raise_append, raise_append]
      rfl

theorem steady_lowerCall (sc : Scope) {target : Lower (List Instr × Operand)} (method : String)
    {args : Formals → Lower Arguments} (expected : Option Ty) (discard : Bool)
    (htarget : Steady target) (hargs : ∀ formals, Steady (args formals)) :
    Steady (lowerCall sc target method args expected discard) := by
  intro up k
  rw [lowerCall]
  refine (htarget up k).bind fun t k₁ _ ht => ?_
  obtain ⟨code, object⟩ := t
  simp only [raise_pair, ownSignature_raise]
  refine (hargs _ up k₁).bind fun arguments k₂ hle₂ harguments =>
    (follows_close _ harguments).bind fun pair k₃ hle₃ hpair => ?_
  obtain ⟨argCode, operands⟩ := pair
  have hle := Counters.le_trans hle₂ hle₃
  have hcode : Below k₃ (code ++ argCode) :=
    below_append.mpr ⟨HasNumbers.mono hle ht.1, hpair.1⟩
  have hobject : Below k₃ object := HasNumbers.mono hle ht.2
  simp only [raise_pair]
  split
  · refine .pure ⟨below_append.mpr ⟨hcode, below_cons.mpr ⟨⟨hobject, hpair.2⟩, below_nil⟩⟩,
      below_none⟩ ?_
    show Lowered.mk _ _ = Lowered.mk _ _
    rw [raise_append, raise_append]
    cases object <;> rfl
  · exact follows_compute hcode ⟨hobject, hpair.2⟩ (raise_append _ _).symm (by cases object <;> rfl)

/-! ## Trees -/

mutual

theorem steady_lowerExpr (sc : Scope) : ∀ (hint : Option Ty) (e : Expr),
    Steady (lowerExpr sc hint e)
  | hint, .literal value => by
    rw [lowerExpr]
    exact fun up k => .pure ⟨below_nil, below_some.mpr trivial⟩ rfl
  | hint, .self => by
    rw [lowerExpr]
    exact fun up k => .receiver_bind fun object hobject hraise =>
      .pure ⟨below_nil, below_some.mpr hobject⟩ (congrArg Lowered.value hraise.symm)
  | hint, .var name => by
    rw [lowerExpr]
    exact steady_lowerVar sc name
  | hint, .paren inner => by
    rw [lowerExpr]
    exact steady_lowerExpr sc hint inner
  | hint, .binary .add left right | hint, .binary .sub left right | hint, .binary .mul left right
  | hint, .binary .div left right | hint, .binary .lt left right => by
    rw [lowerExpr]
    exact steady_lowerBinary _ (steady_lowerExpr sc _ left) (steady_lowerExpr sc _ right)
  | hint, .binary .and left right => by
    rw [lowerExpr]
    exact steady_lowerAnd _ (steady_lowerExpr sc _ left) (steady_lowerExpr sc _ right)
  | hint, .binary .or left right => by
    rw [lowerExpr]
    exact steady_lowerOr _ (steady_lowerExpr sc _ left) (steady_lowerExpr sc _ right)
  | hint, .not operand => by
    rw [lowerExpr]
    exact steady_lowerNot (steady_lowerExpr sc _ operand)
  | hint, .newArray element size => by
    rw [lowerExpr]
    exact steady_lowerNewArray element (steady_lowerExpr sc _ size)
  | hint, .arrayLiteral elements => by
    rw [lowerExpr]
    intro up k
    refine (steady_lowerItems sc _ elements up k).bind fun items k₁ _ hitems => ?_
    rw [literalElementTy_raise]
    exact follows_packArray _ hitems
  | hint, .index array index => by
    rw [lowerExpr]
    exact steady_lowerIndex _ (steady_lowerExpr sc _ array) (steady_lowerExpr sc _ index)
  | hint, .length array => by
    rw [lowerExpr]
    exact steady_lowerLength _ (steady_lowerExpr sc _ array)
  | hint, .newObject className => by
    rw [lowerExpr]
    exact steady_lowerNewObject className
  | hint, .call target method args => by
    rw [lowerExpr]
    exact steady_lowerCall sc method hint false
      (steady_lowerTarget sc target (steady_lowerExpr sc none target))
      fun formals => steady_lowerArgs sc formals args

theorem steady_lowerItems (sc : Scope) (hint : Option Ty) : ∀ (es : List Expr),
    Steady (lowerItems sc hint es)
  | [] => by
    rw [lowerItems]
    exact fun up k => .pure below_nil rfl
  | e :: rest => by
    rw [lowerItems]
    exact fun up k => (steady_lowerExpr sc hint e up k).bind fun item k₁ _ hitem =>
      (steady_lowerItems sc hint rest up k₁).bind fun items k₂ hle hitems =>
      .pure (below_cons.mpr ⟨HasNumbers.mono hle hitem, hitems⟩) rfl

theorem steady_lowerArgs (sc : Scope) : ∀ (formals : Formals) (args : List Expr),
    Steady (lowerArgs sc formals args)
  | formals, [] => by
    rw [lowerArgs]
    exact fun up k => .pure ⟨below_nil, below_nil, below_nil⟩ rfl
  | formals, e :: rest => by
    rw [lowerArgs]
    exact steady_cons formals (steady_lowerExpr sc _ e) (steady_lowerArgs sc formals.next rest)

end

theorem steady_lowerEffect (sc : Scope) (e : Expr) : Steady (lowerEffect sc e) := by
  refine lowerEffect_cases (P := fun _ x => Steady x) (fun target method args => ?_)
    (fun e _ _ => steady_lowerExpr sc none e) e
  exact steady_lowerCall sc method none true
    (steady_lowerTarget sc target (steady_lowerExpr sc none target))
    fun formals => steady_lowerArgs sc formals args

theorem steady_lowerCondition (sc : Scope) (e : Expr) : Steady (lowerCondition sc e) := by
  refine lowerCondition_cases (P := fun _ x => Steady x) (fun left right up k => ?_)
    (fun e up k => ?_) e
  · refine (steady_lowerExpr sc _ left up k).bind fun l k₁ _ hl =>
      (steady_lowerExpr sc _ right up k₁).bind fun r k₂ hle hr => ?_
    replace hl : Below k₂ l := HasNumbers.mono hle hl
    refine .require_bind hl fun o ho => .require_bind hr fun o' ho' =>
      .pure ⟨below_append.mpr ⟨hl.1, hr.1⟩, ho, ho'⟩ ?_
    rw [raise_pair, raise_append]
    rfl
  · exact (steady_lowerExpr sc _ e up k).bind fun l k₁ _ hl =>
      .require_bind hl fun o ho => .pure ⟨hl.1, ho⟩ rfl

/-! ## Statements -/

theorem steady_lowerAssign (sc : Scope) (target : String) {value : Option Ty → Lower Lowered}
    (hvalue : ∀ hint, Steady (value hint)) : Steady (lowerAssign sc target value) := by
  intro up k
  refine .lift_bind fun binding _ => ?_
  match binding with
  | .variable ty =>
    refine (hvalue _ up k).bind fun v k₁ _ hv => .require_bind hv fun o ho => .pure ?_ ?_
    · exact below_append.mpr ⟨hv.1, below_cons.mpr ⟨⟨trivial, ho⟩, below_nil⟩⟩
    · rw [raise_append]
      rfl
  | .field ty =>
    refine (hvalue _ up k).bind fun v k₁ _ hv => .require_bind hv fun o ho =>
      .receiver_bind fun object hobject hraise => .pure ?_ ?_
    · exact below_append.mpr ⟨hv.1, below_cons.mpr ⟨⟨hobject, ho⟩, below_nil⟩⟩
    · rw [raise_append]
      exact congrArg (fun object => _ ++ [Instr.putField object target _]) hraise.symm
  | .className name => exact .throw _

theorem steady_lowerArrayAssign (sc : Scope) (target : String) (hx : Steady x)
    {value : Option Ty → Lower Lowered} (hvalue : ∀ hint, Steady (value hint)) :
    Steady (lowerArrayAssign sc target x value) := by
  intro up k
  refine (steady_lowerVar sc target up k).bind fun a k₁ _ ha => .require_bind ha fun array harray => ?_
  rw [elementTy_raise]
  refine .lift_bind fun element _ => (hx up k₁).bind fun i k₂ hle₂ hi => .require_bind hi fun place hplace =>
    (hvalue _ up k₂).bind fun v k₃ hle₃ hv => .require_bind hv fun o ho => .pure ?_ ?_
  · replace ha := HasNumbers.mono (Counters.le_trans hle₂ hle₃) ha
    replace hi := HasNumbers.mono hle₃ hi
    simp only [below_append, below_cons, below_element, below_operand]
    exact ⟨⟨⟨ha.1, hi.1⟩, hv.1⟩, ⟨⟨HasNumbers.mono (Counters.le_trans hle₂ hle₃) harray,
      HasNumbers.mono hle₃ hplace⟩, ho⟩, below_nil⟩
  · simp only [raise_append]
    rfl

theorem raise_skip (returns : Bool) (i : Instr) :
    (if returns then [] else [raise up i]) = raise up (if returns then [] else [i]) := by
  cases returns <;> rfl

theorem below_skip {returns : Bool} {i : Instr} (hi : Below k i) :
    Below k (if returns then [] else [i]) := by
  cases returns with
  | true => exact below_nil
  | false => exact below_cons.mpr ⟨hi, below_nil⟩

theorem steady_lowerIf {condition : Lower (List Instr × Value)} {a b : Lower (List Instr)}
    (returns : Bool) (hcondition : Steady condition) (ha : Steady a) (hb : Steady b) :
    Steady (lowerIf condition a b returns) := by
  intro up k
  refine follows_freshLabel.bind fun n k₁ hle₁ hn => (hcondition up k₁).bind fun test k₂ hle₂ htest =>
    (hb up k₂).bind fun elseCode k₃ hle₃ helse => (ha up k₃).bind fun thenCode k₄ hle₄ hthen => ?_
  obtain ⟨test, value⟩ := test
  have hle := Counters.le_trans hle₃ hle₄
  have hlabel : n < k₄.labels := HasNumbers.mono (Counters.le_trans hle₂ hle) hn
  replace htest : Below k₄ (test, value) := HasNumbers.mono hle htest
  replace helse := HasNumbers.mono hle₄ helse
  refine .pure ?_ ?_
  · simp only [below_append, below_cons, below_condGoto, below_label, below_numbered]
    exact ⟨⟨⟨⟨⟨⟨htest.1, ⟨htest.2, hlabel⟩, below_nil⟩, helse⟩, below_skip hlabel⟩,
      hlabel, below_nil⟩, hthen⟩, below_skip hlabel⟩
  · simp only [raise_append, ← raise_skip]
    rfl

theorem steady_lowerLoop {condition : Lower (List Instr × Value)} {body : Lower (List Instr)}
    (hcondition : Steady condition) (hbody : Steady body) : Steady (lowerLoop condition body) := by
  intro up k
  refine follows_freshLabel.bind fun n k₁ hle₁ hn => (hbody up k₁).bind fun bodyCode k₂ hle₂ hcode =>
    (hcondition up k₂).bind fun test k₃ hle₃ htest => ?_
  obtain ⟨test, value⟩ := test
  have hlabel : n < k₃.labels := HasNumbers.mono (Counters.le_trans hle₂ hle₃) hn
  replace hcode := HasNumbers.mono hle₃ hcode
  refine .pure ?_ ?_
  · simp only [below_append, below_cons, below_goto, below_condGoto, below_label, below_numbered]
    exact ⟨⟨⟨⟨⟨hlabel, hlabel, below_nil⟩, hcode⟩, hlabel, below_nil⟩, htest.1⟩,
      ⟨htest.2, hlabel⟩, below_nil⟩
  · simp only [raise_append]
    rfl

theorem steady_lowerReturn (sc : Scope) {value : Option Ty → Lower Lowered}
    (hvalue : ∀ hint, Steady (value hint)) : Steady (lowerReturn sc value) := by
  intro up k
  refine .lift_bind fun m _ => (hvalue _ up k).bind fun v k₁ _ hv => .require_bind hv fun o ho =>
    .pure ?_ ?_
  · exact below_append.mpr ⟨hv.1, below_cons.mpr ⟨below_some.mpr ho, below_nil⟩⟩
  · rw [raise_append]
    rfl

mutual

theorem steady_lowerStmt (sc : Scope) : ∀ (s : Stmt), Steady (lowerStmt sc s)
  | .assign target value => by
    rw [lowerStmt]
    exact steady_lowerAssign sc target fun hint => steady_lowerExpr sc hint value
  | .arrayAssign target index value => by
    rw [lowerStmt]
    exact steady_lowerArrayAssign sc target (steady_lowerExpr sc _ index)
      fun hint => steady_lowerExpr sc hint value
  | .ite condition thenBranch elseBranch => by
    rw [lowerStmt]
    exact steady_lowerIf _ (steady_lowerCondition sc condition) (steady_lowerStmt sc thenBranch)
      (steady_lowerStmt sc elseBranch)
  | .loop condition body => by
    rw [lowerStmt]
    exact steady_lowerLoop (steady_lowerCondition sc condition) (steady_lowerStmt sc body)
  | .block body => by
    rw [lowerStmt]
    exact steady_lowerStmts sc body
  | .ret none => by
    rw [lowerStmt]
    exact fun up k => .pure (below_cons.mpr ⟨below_none, below_nil⟩) rfl
  | .ret (some value) => by
    rw [lowerStmt]
    exact steady_lowerReturn sc fun hint => steady_lowerExpr sc hint value
  | .expr value => by
    rw [lowerStmt]
    exact fun up k => (steady_lowerEffect sc value up k).bind fun l k₁ _ hl => .pure hl.1 rfl

theorem steady_lowerStmts (sc : Scope) : ∀ (body : List Stmt), Steady (lowerStmts sc body)
  | [] => by
    rw [lowerStmts]
    exact fun up k => .pure below_nil rfl
  | s :: rest => by
    rw [lowerStmts]
    exact fun up k => (steady_lowerStmt sc s up k).bind fun code k₁ _ hcode =>
      (steady_lowerStmts sc rest up k₁).bind fun more k₂ hle hmore =>
      .pure (below_append.mpr ⟨HasNumbers.mono hle hcode, hmore⟩) (raise_append _ _).symm

end

theorem steady_lowerBody (symbols : SymbolTable) (m : Method) : Steady (lowerBody symbols m) := by
  intro up k
  refine (steady_lowerStmts _ m.body up k).bind fun code k₁ _ hcode => .pure ?_ ?_
  · split
    · exact below_append.mpr ⟨hcode, below_cons.mpr ⟨below_none, below_nil⟩⟩
    · exact hcode
  · split
    · rw [raise_append]
      rfl
    · rfl

end Parts

end MiniJava.Lowering
