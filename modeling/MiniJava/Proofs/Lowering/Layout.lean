import MiniJava.Lowering.Session
import MiniJava.Proofs.Success

/-!
# The layout of lowered methods

Where instructions stand in a list, and what an accepted body is like: the map from labels to places
finds every label, and the header of the method is the one of the declaration.
-/

namespace MiniJava

variable {α : Type}

/-- A segment stands in a list at a place. -/
def Placed (code : List α) (place : Nat) (segment : List α) : Prop :=
  segment <+: code.drop place

theorem Placed.head {code : List α} {place : Nat} {x : α} {rest : List α}
    (h : Placed code place (x :: rest)) : code[place]? = some x := by
  obtain ⟨tail, htail⟩ := h
  have hget : (code.drop place)[0]? = some x := by
    rw [← htail]
    rfl
  rwa [List.getElem?_drop, Nat.add_zero] at hget

theorem Placed.tail {code : List α} {place : Nat} {x : α} {rest : List α}
    (h : Placed code place (x :: rest)) : Placed code (place + 1) rest := by
  obtain ⟨tail, htail⟩ := h
  refine ⟨tail, ?_⟩
  rw [← List.drop_drop, ← htail]
  rfl

theorem Placed.left {code a b : List α} {place : Nat} (h : Placed code place (a ++ b)) :
    Placed code place a :=
  (List.prefix_append a b).trans h

theorem Placed.right {code a b : List α} {place : Nat} (h : Placed code place (a ++ b)) :
    Placed code (place + a.length) b := by
  obtain ⟨tail, htail⟩ := h
  refine ⟨tail, ?_⟩
  rw [← List.drop_drop, ← htail, List.append_assoc, List.drop_left]

theorem Placed.at {code segment : List α} {place place' : Nat} (h : Placed code place segment)
    (hplace : place = place') : Placed code place' segment :=
  hplace ▸ h

theorem Placed.take {code segment : List α} {place : Nat} (h : Placed code place segment) :
    code.take (place + segment.length) = code.take place ++ segment := by
  rw [List.take_add, ← List.prefix_iff_eq_take.mp h]

theorem Placed.self (code : List α) : Placed code 0 code :=
  List.prefix_refl code

namespace Ir

/-! ## Labels -/

theorem LabelMap.lookup_filter (labels : LabelMap) {label other : Label} (h : other ≠ label) :
    (labels.filter (·.1 != label)).lookup other = labels.lookup other := by
  induction labels with
  | nil => rfl
  | cons entry rest ih =>
    obtain ⟨l, place⟩ := entry
    by_cases hl : l = label
    · have hne : (other == l) = false := beq_false_of_ne (hl ▸ h)
      rw [List.filter_cons_of_neg (by simpa using hl), ih, List.lookup_cons, hne]
    · rw [List.filter_cons_of_pos (by simpa using hl), List.lookup_cons, List.lookup_cons, ih]

theorem LabelMap.place_insert_self (labels : LabelMap) (label : Label) (place : Nat) :
    (labels.insert label place).place? label = some place := by
  rw [LabelMap.insert, LabelMap.place?, List.lookup_cons, beq_self_eq_true]

theorem LabelMap.place_insert_of_ne (labels : LabelMap) {label other : Label} (h : other ≠ label)
    (place : Nat) : (labels.insert label place).place? other = labels.place? other := by
  rw [LabelMap.insert, LabelMap.place?, List.lookup_cons, beq_false_of_ne h]
  exact labels.lookup_filter h

namespace Method

/-- What the installation of a body leaves as it is. -/
structure SameHeader (m m' : Method) : Prop where
  name : m'.name = m.name
  isStatic : m'.isStatic = m.isStatic
  params : m'.params = m.params
  returnTy : m'.returnTy = m.returnTy

theorem enter_places : ∀ (body : List Instr) (m : Method) (place : Nat) {m' : Method},
    m.enter place body = (m', none) →
      SameHeader m m' ∧ (∀ l k, m.labels.place? l = some k → m'.labels.place? l = some k) ∧
        ∀ i l, body[i]? = some (.label l) → m'.labels.place? l = some (place + i)
  | [], m, place, m', h => by
    cases h
    exact ⟨⟨rfl, rfl, rfl, rfl⟩, fun _ _ hl => hl, fun i l hl => by cases hl⟩
  | i :: rest, m, place, m', h => by
    rw [enter] at h
    cases hlabel : i.definedLabel? with
    | some label =>
      simp only [hlabel] at h
      have hi : i = .label label := by
        cases i <;> cases hlabel
        rfl
      cases hknown : (m.labels.place? label).isSome with
      | true =>
        rw [if_pos hknown] at h
        cases h
      | false =>
        rw [if_neg (by rw [hknown]; nofun)] at h
        obtain ⟨hheader, hold, hnew⟩ := enter_places rest _ _ h
        refine ⟨⟨hheader.name, hheader.isStatic, hheader.params, hheader.returnTy⟩,
          fun l k hl => hold l k ?_, fun j l hl => ?_⟩
        · show (m.labels.insert label place).place? l = some k
          rw [LabelMap.place_insert_of_ne, hl]
          rintro rfl
          rw [hl] at hknown
          cases hknown
        · cases j with
          | zero =>
            rw [hi] at hl
            cases hl
            exact hold label place (LabelMap.place_insert_self m.labels label place)
          | succ j =>
            rw [Nat.add_comm j, ← Nat.add_assoc]
            exact hnew j l hl
    | none =>
      simp only [hlabel] at h
      have hi : ∀ l, i ≠ .label l := by
        rintro l rfl
        cases hlabel
      have hrest : ∃ m₁ : Method, SameHeader m m₁ ∧ m₁.labels = m.labels ∧
          m₁.enter (place + 1) rest = (m', none) := by
        cases hvar : i.definedVar? with
        | none =>
          simp only [hvar] at h
          exact ⟨m, ⟨rfl, rfl, rfl, rfl⟩, rfl, h⟩
        | some entry =>
          simp only [hvar] at h
          exact ⟨{ m with vars := m.vars.bind (.temp entry.1) entry.2 }, ⟨rfl, rfl, rfl, rfl⟩, rfl, h⟩
      obtain ⟨m₁, hsame, hlabels, h⟩ := hrest
      obtain ⟨hheader, hold, hnew⟩ := enter_places rest m₁ (place + 1) h
      refine ⟨⟨hheader.name.trans hsame.name, hheader.isStatic.trans hsame.isStatic,
        hheader.params.trans hsame.params, hheader.returnTy.trans hsame.returnTy⟩,
        fun l k hl => hold l k (by rwa [hlabels]), fun j l hl => ?_⟩
      cases j with
      | zero => exact absurd (Option.some.inj hl) (hi l)
      | succ j =>
        rw [Nat.add_comm j, ← Nat.add_assoc]
        exact hnew j l hl

theorem enter_labels : ∀ (body : List Instr) (m : Method) (place : Nat) {m' : Method},
    m.enter place body = (m', none) → ∀ l k, m'.labels.place? l = some k →
      m.labels.place? l = some k ∨ ∃ i, k = place + i ∧ body[i]? = some (.label l)
  | [], m, place, m', h, l, k, hl => by
    cases h
    exact .inl hl
  | i :: rest, m, place, m', h, l, k, hl => by
    rw [enter] at h
    have hstep : ∀ {m₁ : Method}, m₁.enter (place + 1) rest = (m', none) →
        m₁.labels.place? l = some k ∨
          ∃ j, k = place + j ∧ (i :: rest)[j]? = some (.label l) := by
      intro m₁ h
      rcases enter_labels rest m₁ (place + 1) h l k hl with hold | ⟨j, rfl, hj⟩
      · exact .inl hold
      · exact .inr ⟨j + 1, by omega, hj⟩
    cases hlabel : i.definedLabel? with
    | some label =>
      simp only [hlabel] at h
      by_cases hknown : (m.labels.place? label).isSome
      · rw [if_pos hknown] at h
        cases h
      · rw [if_neg hknown] at h
        rcases hstep h with hold | hnew
        · by_cases hsame : l = label
          · have hplace : (m.labels.insert label place).place? l = some k := hold
            rw [hsame, LabelMap.place_insert_self] at hplace
            cases hplace
            refine .inr ⟨0, rfl, ?_⟩
            cases i <;> cases hlabel
            rw [hsame]
            rfl
          · have hplace : (m.labels.insert label place).place? l = some k := hold
            rw [LabelMap.place_insert_of_ne _ hsame] at hplace
            exact .inl hplace
        · exact .inr hnew
    | none =>
      simp only [hlabel] at h
      cases hvar : i.definedVar? with
      | none =>
        simp only [hvar] at h
        exact hstep h
      | some entry =>
        simp only [hvar] at h
        exact @hstep { m with vars := m.vars.bind (.temp entry.1) entry.2 } h

/-- The label map of a method finds every label of its instructions. -/
def LabelsPlaced (m : Method) : Prop :=
  ∀ i l, m.instructions[i]? = some (.label l) → m.labels.place? l = some i

/-- The label map of a method has no other labels. -/
def LabelsDefined (m : Method) : Prop :=
  ∀ l k, m.labels.place? l = some k → m.instructions[k]? = some (.label l)

/-- A body is accepted if its labels and temporaries can be entered and the method is valid then. -/
theorem setBody_accepted {m m' : Method} {body : List Instr} (h : m.setBody body = (.ok (), m')) :
    ∃ entered, Method.enter { m with labels := [] } 0 body = (entered, none) ∧
      m' = { entered with instructions := body } ∧ m'.validate = .ok () := by
  rw [setBody] at h
  cases henter : Method.enter { m with labels := [] } 0 body with
  | mk entered duplicate =>
    rw [henter] at h
    cases duplicate with
    | some label => cases h
    | none =>
      obtain ⟨hvalid, rfl⟩ := Prod.mk.inj h
      exact ⟨entered, rfl, rfl, hvalid⟩

theorem setBody_ok {m m' : Method} {body : List Instr} (h : m.setBody body = (.ok (), m')) :
    SameHeader m m' ∧ m'.instructions = body ∧ m'.LabelsPlaced ∧ m'.LabelsDefined := by
  obtain ⟨entered, henter, rfl, _⟩ := setBody_accepted h
  obtain ⟨hheader, _, hplaces⟩ := enter_places body _ 0 henter
  refine ⟨⟨hheader.name, hheader.isStatic, hheader.params, hheader.returnTy⟩, rfl,
    fun i l hl => ?_, fun l k hl => ?_⟩
  · have := hplaces i l hl
    rwa [Nat.zero_add] at this
  · rcases enter_labels body _ 0 henter l k hl with hold | ⟨i, rfl, hi⟩
    · cases hold
    · rwa [Nat.zero_add]

end Method

end Ir

/-! ## The header of a lowered method -/

namespace Lowering

open Ir.Method (SameHeader)

theorem foldl_addParam : ∀ (params : List Param) (f : Ir.Method),
    let f' := params.foldl (fun f p => f.addParam { name := p.name, ty := p.ty }) f
    f'.params = f.params ++ params.map (fun p => { name := p.name, ty := p.ty }) ∧
      f'.name = f.name ∧ f'.isStatic = f.isStatic ∧ f'.returnTy = f.returnTy
  | [], f => by simp
  | p :: rest, f => by
    obtain ⟨hparams, hname, hstatic, hreturn⟩ :=
      foldl_addParam rest (f.addParam { name := p.name, ty := p.ty })
    refine ⟨?_, hname, hstatic, hreturn⟩
    rw [List.foldl_cons, hparams, Ir.Method.addParam, List.map_cons, List.append_assoc]
    rfl

theorem foldl_addLocal : ∀ (locals : List Variable) (f : Ir.Method),
    SameHeader f (locals.foldl (·.addLocal ·) f)
  | [], f => ⟨rfl, rfl, rfl, rfl⟩
  | var :: rest, f => by
    obtain ⟨hname, hstatic, hparams, hreturn⟩ := foldl_addLocal rest (f.addLocal var)
    exact ⟨hname, hstatic, hparams, hreturn⟩

theorem frame_header (className : String) (m : Method) :
    (frame className m).name = m.name ∧ (frame className m).isStatic = m.isStatic ∧
      (frame className m).params = m.params.map (fun p => { name := p.name, ty := p.ty }) ∧
      (frame className m).returnTy = m.returnTy := by
  rw [frame]
  obtain ⟨hname, hstatic, hparams, hreturn⟩ := foldl_addLocal m.locals
    (m.params.foldl (fun f p => f.addParam { name := p.name, ty := p.ty })
      { Ir.Method.new m.name className m.isStatic m.returnTy with
        access := m.access, isFinal := m.isFinal })
  obtain ⟨hparams', hname', hstatic', hreturn'⟩ := foldl_addParam m.params
    { Ir.Method.new m.name className m.isStatic m.returnTy with
      access := m.access, isFinal := m.isFinal }
  exact ⟨hname.trans hname', hstatic.trans hstatic', hparams.trans hparams',
    hreturn.trans hreturn'⟩

/-- A lowered method has the header of the declaration and the code of the body, with its labels in
place. -/
structure LoweredMethod (symbols : SymbolTable) (m : Method) (k k' : Counters) (ir : Ir.Method) :
    Prop where
  body : Gives (lowerBody symbols m) k ir.instructions k'
  placed : ir.LabelsPlaced
  defined : ir.LabelsDefined
  name : ir.name = m.name
  isStatic : ir.isStatic = m.isStatic
  returnTy : ir.returnTy = m.returnTy
  params : ir.params = m.params.map (fun p => { name := p.name, ty := p.ty })

/-- The code of the body is installed in the frame of the method, which accepts it. -/
theorem lowerMethod_installs {symbols : SymbolTable} {m : Method} {k k' : Counters} {ir : Ir.Method}
    (h : Gives (lowerMethod symbols m) k ir k') : Gives (lowerBody symbols m) k ir.instructions k' ∧
      (frame symbols.className m).setBody ir.instructions = (.ok (), ir) := by
  rw [lowerMethod, Gives.bind_iff] at h
  obtain ⟨code, k₁, hcode, h⟩ := h
  cases hset : (frame symbols.className m).setBody code with
  | mk result method =>
    rw [hset, Gives.bind_iff] at h
    obtain ⟨_, k₂, hresult, h⟩ := h
    obtain ⟨rfl, rfl⟩ := Gives.lift_iff.mp hresult
    obtain ⟨rfl, rfl⟩ := Gives.pure_iff.mp h
    obtain ⟨_, rfl, _, _⟩ := Ir.Method.setBody_ok hset
    exact ⟨hcode, hset⟩

theorem lowerMethod_gives {symbols : SymbolTable} {m : Method} {k k' : Counters} {ir : Ir.Method}
    (h : Gives (lowerMethod symbols m) k ir k') : LoweredMethod symbols m k k' ir := by
  obtain ⟨hcode, hset⟩ := lowerMethod_installs h
  obtain ⟨hheader, _, hplaced, hdefined⟩ := Ir.Method.setBody_ok hset
  obtain ⟨hname, hstatic, hparams, hreturn⟩ := frame_header symbols.className m
  exact ⟨hcode, hplaced, hdefined, hheader.name.trans hname, hheader.isStatic.trans hstatic,
    hheader.returnTy.trans hreturn, hheader.params.trans hparams⟩

end Lowering

end MiniJava
