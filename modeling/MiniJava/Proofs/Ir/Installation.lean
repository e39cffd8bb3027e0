import MiniJava.Proofs.Ir.Reachable
import MiniJava.Proofs.Lowering.Layout

/-!
# Which bodies a method accepts

The verdict on a body is told from its instructions and from the names that are declared: the first
repeated label, else the first thing wrong with an instruction, looked at with the instructions in
front of it. Installation comes to this verdict from whatever labels, temporaries and instructions
earlier bodies left in the method.
-/

namespace MiniJava.Ir

/-! ## The first finding in a list -/

/-- The first thing found in a list by looking at an item and the ones in front of it. -/
def firstFinding {ι α : Type} (f : List ι → ι → Option α) (items : List ι) : Option α :=
  (List.range items.length).findSome? fun n => items[n]?.bind (f (items.take n))

theorem firstFinding_cons {ι α : Type} (f : List ι → ι → Option α) (i : ι) (rest : List ι) :
    firstFinding f (i :: rest) =
      (f [] i).or (firstFinding (fun before => f (i :: before)) rest) := by
  rw [firstFinding, List.length_cons, List.range_succ_eq_map, List.findSome?_cons,
    List.findSome?_map]
  cases hfound : f [] i <;> simp [hfound, firstFinding, Function.comp_def]

/-! ## Faults -/

/-- A refusal for a reason, if there is one. -/
def refusal : Option CompileError → Except CompileError Unit
  | some e => .error e
  | none => .ok ()

theorem refusal_or (reason other : Option CompileError) :
    refusal (reason.or other) = (refusal reason >>= fun _ => refusal other) := by
  cases reason <;> rfl

theorem forM_refusal {α : Type} (f : α → Option CompileError) : ∀ items : List α,
    (items.forM fun item => refusal (f item)) = refusal (items.findSome? f)
  | [] => rfl
  | item :: rest => by
    show (refusal (f item) >>= fun _ => rest.forM fun item => refusal (f item)) = _
    rw [forM_refusal f rest, List.findSome?_cons]
    cases f item <;> rfl

/-- The label of an instruction that is there already. -/
def repeatedLabel? (before : List Instr) (i : Instr) : Option Label :=
  i.definedLabel?.filter fun label => .label label ∈ before

namespace Method

variable (m : Method)

/-- What is wrong with a read behind some instructions: nothing assigns the temporary, or the name
is not declared. -/
def readFault? (before : List Instr) : Operand → Option CompileError
  | .temp id _ =>
    if id ∈ before.filterMap Instr.definedTemp? then none
    else some (.contract (.tempUndefined id m.name))
  | .var name _ => if name ∈ m.names then none else some (.unresolvedName name m.name)
  | .literal _ | .receiver _ | .classRef _ => none

/-- What is wrong with a jump in a body: the label is not there. -/
def jumpFault? (body : List Instr) (i : Instr) : Option CompileError :=
  (i.jumpTarget?.filter fun label => .label label ∉ body).map (.undefinedLabel · m.name)

/-- The first thing that is wrong with an instruction of a body behind some instructions. -/
def fault? (body before : List Instr) (i : Instr) : Option CompileError :=
  (m.jumpFault? body i).or (i.usedOperands.findSome? (m.readFault? before))

/-- The verdict on a body: the first repeated label is held against it, or else the first fault. -/
def verdict (body : List Instr) : Except CompileError Unit :=
  refusal (((firstFinding repeatedLabel? body).map (.duplicateLabel · m.name)).or
    (firstFinding (m.fault? body) body))

/-- The temporaries of a body that have no register, in the order of their first assignments. -/
def newTemps (body : List Instr) : List Nat :=
  ((body.filterMap Instr.definedTemp?).filter fun id =>
    (m.vars.register? (.temp id)).isNone).eraseDups

/-- A method with an accepted body in place of its former one. Nothing else of the method is
changed, and no register is given anew. -/
structure Installed (m : Method) (body : List Instr) (m' : Method) : Prop where
  rest : m' = { m with
    instructions := m'.instructions
    labels := m'.labels
    vars := m'.vars }
  instructions : m'.instructions = body
  places : ∀ label n, m'.labels.place? label = some n ↔ body[n]? = some (.label label)
  kept : ∀ key register, m.vars.register? key = some register →
    m'.vars.register? key = some register
  next : ∀ n id, (m.newTemps body)[n]? = some id →
    m'.vars.register? (.temp id) = some (m.localsLimit + n)
  limit : m'.localsLimit = m.localsLimit + (m.newTemps body).length

variable {m}

/-! ## Labels -/

theorem enter_repeated : ∀ (rest : List Instr) (m : Method) (place : Nat) (front : List Instr),
    (∀ label, (m.labels.place? label).isSome ↔ .label label ∈ front) →
      (m.enter place rest).2 = firstFinding (fun before => repeatedLabel? (front ++ before)) rest
  | [], _, _, _, _ => rfl
  | i :: rest, m, place, front, hfront => by
    -- Behind `i` its label, if it has one, is among those in front.
    have hnext : ∀ (m' : Method), (∀ label, (m'.labels.place? label).isSome ↔
        .label label ∈ front ++ [i]) → (m'.enter (place + 1) rest).2 =
          firstFinding (fun before => repeatedLabel? (front ++ i :: before)) rest := by
      intro m' hfront'
      have hrest := enter_repeated rest m' (place + 1) (front ++ [i]) hfront'
      simpa only [List.append_assoc, List.singleton_append] using hrest
    rw [firstFinding_cons, List.append_nil, enter, repeatedLabel?]
    cases hlabel : i.definedLabel? with
    | some label =>
      have hi : i = .label label := by
        cases i <;> cases hlabel
        rfl
      dsimp only
      by_cases hknown : (m.labels.place? label).isSome
      · rw [if_pos hknown, Option.filter_some_pos (by simpa using (hfront label).mp hknown)]
        rfl
      · rw [if_neg hknown, Option.filter_some_neg (by simpa using mt (hfront label).mpr hknown)]
        refine hnext _ fun other => ?_
        rw [List.mem_append, List.mem_singleton, hi, Instr.label.injEq, ← hfront]
        by_cases hother : other = label
        · subst hother
          show ((m.labels.insert other place).place? other).isSome ↔ _
          rw [LabelMap.place_insert_self]
          simp
        · show ((m.labels.insert label place).place? other).isSome ↔ _
          rw [LabelMap.place_insert_of_ne _ hother]
          exact (or_iff_left hother).symm
    | none =>
      have hfront' : ∀ label, (m.labels.place? label).isSome ↔ .label label ∈ front ++ [i] := by
        intro label
        rw [List.mem_append, List.mem_singleton, hfront]
        refine (or_iff_left ?_).symm
        rintro rfl
        cases hlabel
      cases i.definedVar? with
      | none => exact hnext m hfront'
      | some entry => exact hnext { m with vars := m.vars.bind (.temp entry.1) entry.2 } hfront'

/-! ## The check of a body -/

theorem checkJump_eq {m m' : Method} {body : List Instr} (hname : m'.name = m.name)
    (hlabels : ∀ label, (m'.labels.place? label).isSome ↔ .label label ∈ body) (i : Instr) :
    m'.checkJump i = refusal (m.jumpFault? body i) := by
  rw [checkJump, jumpFault?, hname]
  cases i.jumpTarget? with
  | none => rfl
  | some label =>
    by_cases hknown : .label label ∈ body
    · rw [Option.filter_some_neg (by simpa using hknown)]
      exact if_pos ((hlabels label).mpr hknown)
    · rw [Option.filter_some_pos (by simpa using hknown)]
      exact if_neg (mt (hlabels label).mp hknown)

theorem checkOperand_eq {m m' : Method} {front : List Instr} {defined : List Nat}
    (hname : m'.name = m.name)
    (hnames : ∀ name, (m'.vars.register? (.named name)).isSome ↔ name ∈ m.names)
    (hdefined : ∀ id, id ∈ defined ↔ id ∈ front.filterMap Instr.definedTemp?) (o : Operand) :
    m'.checkOperand defined o = refusal (m.readFault? front o) := by
  cases o with
  | temp id ty =>
    rw [checkOperand, readFault?, hname]
    by_cases hid : id ∈ defined
    · rw [if_pos hid, if_pos ((hdefined id).mp hid)]
      rfl
    · rw [if_neg hid, if_neg (mt (hdefined id).mpr hid)]
      rfl
  | var name ty =>
    rw [checkOperand, readFault?, hname]
    by_cases hvar : name ∈ m.names
    · rw [if_pos hvar, if_pos ((hnames name).mpr hvar)]
      rfl
    · rw [if_neg hvar, if_neg (mt (hnames name).mp hvar)]
      rfl
  | literal | receiver | classRef => rfl

/-- Checking stops at the first fault. -/
theorem checkFrom_eq {m m' : Method} {body : List Instr} (hname : m'.name = m.name)
    (hlabels : ∀ label, (m'.labels.place? label).isSome ↔ .label label ∈ body)
    (hnames : ∀ name, (m'.vars.register? (.named name)).isSome ↔ name ∈ m.names) :
    ∀ (rest front : List Instr) (defined : List Nat),
      (∀ id, id ∈ defined ↔ id ∈ front.filterMap Instr.definedTemp?) →
        m'.checkFrom defined rest =
          refusal (firstFinding (fun before => m.fault? body (front ++ before)) rest)
  | [], _, _, _ => rfl
  | i :: rest, front, defined, hdefined => by
    have hrest := checkFrom_eq hname hlabels hnames rest (front ++ [i])
      (i.definedTemp?.toList ++ defined) fun id => by
        rw [List.filterMap_append, List.mem_append, List.mem_append, hdefined, or_comm]
        cases hdefines : i.definedTemp? <;> simp [hdefines]
    simp only [List.append_assoc, List.singleton_append] at hrest
    have hreads : (i.usedOperands.forM (m'.checkOperand defined)) =
        refusal (i.usedOperands.findSome? (m.readFault? front)) := by
      rw [← forM_refusal]
      exact congrArg _ (funext (checkOperand_eq hname hnames hdefined))
    rw [checkFrom, firstFinding_cons, List.append_nil, fault?, refusal_or, refusal_or, hrest,
      checkJump_eq hname hlabels, hreads, bind_assoc]

/-! ## Installation -/

theorem eraseDups_map {α β : Type} [DecidableEq α] [DecidableEq β] {f : α → β}
    (hf : ∀ a b, f a = f b → a = b) (items : List α) :
    (items.map f).eraseDups = items.eraseDups.map f := by
  match items with
  | [] => rfl
  | a :: rest =>
    have hrest : (rest.map f).filter (fun b => !b == f a) =
        (rest.filter fun b => !b == a).map f := by
      rw [List.filter_map]
      refine congrArg _ (List.filter_congr fun b _ => ?_)
      by_cases hb : b = a
      · rw [hb, beq_self_eq_true, Function.comp_apply, beq_self_eq_true]
      · rw [beq_false_of_ne hb, Function.comp_apply, beq_false_of_ne (mt (hf b a) hb)]
    rw [List.map_cons, List.eraseDups_cons, List.eraseDups_cons, List.map_cons, hrest,
      eraseDups_map hf]
termination_by items.length
decreasing_by exact Nat.lt_succ_of_le (List.length_filter_le ..)

theorem keys_tempEntries (body : List Instr) :
    (tempEntries body).map (·.1) = (body.filterMap Instr.definedTemp?).map .temp := by
  rw [tempEntries, List.map_filterMap, List.map_filterMap]
  refine congrArg (List.filterMap · body) (funext fun i => ?_)
  rw [Instr.definedTemp?, Option.map_map, Option.map_map]
  rfl

theorem keys_bindTemps (m : Method) (body : List Instr) :
    (m.vars.bindAll (tempEntries body)).keys = m.vars.keys ++ (m.newTemps body).map .temp := by
  rw [VarTable.keys_bindAll, keys_tempEntries, List.filter_map,
    eraseDups_map fun _ _ => VarKey.temp.inj, newTemps]
  have hnew : ∀ id, decide (VarKey.temp id ∉ m.vars.keys) =
      (m.vars.register? (.temp id)).isNone := by
    intro id
    have hregister : (m.vars.register? (.temp id)).isSome ↔ .temp id ∈ m.vars.keys :=
      VarTable.register?_isSome
    cases hvar : m.vars.register? (.temp id) with
    | none =>
      rw [hvar] at hregister
      exact decide_eq_true (mt hregister.mpr nofun)
    | some register =>
      rw [hvar] at hregister
      exact decide_eq_false (not_not_intro (hregister.mp rfl))
  simp only [Function.comp_def, hnew]

section Entered

variable {entered : Method} {body : List Instr}

/-- A body without repeated labels is entered as a whole. -/
theorem entered_eq (h : Method.enter { m with labels := [] } 0 body = (entered, none)) :
    entered = { m with
      vars := m.vars.bindAll (tempEntries body)
      labels := entered.labels } := by
  obtain ⟨part, labels, hstate, hall⟩ := enter_state body { m with labels := [] } 0
  rw [h] at hstate hall
  rw [hall rfl] at hstate
  cases hstate
  rfl

theorem entered_places (h : Method.enter { m with labels := [] } 0 body = (entered, none))
    (label : Label) (n : Nat) :
    entered.labels.place? label = some n ↔ body[n]? = some (.label label) := by
  constructor
  · intro hplace
    rcases enter_labels body _ 0 h label n hplace with hold | ⟨i, rfl, hi⟩
    · cases hold
    · rwa [Nat.zero_add]
  · intro hlabel
    obtain ⟨_, _, hplaces⟩ := enter_places body _ 0 h
    rw [hplaces n label hlabel, Nat.zero_add]

theorem validate_entered (hm : m.WellKept)
    (h : Method.enter { m with labels := [] } 0 body = (entered, none)) :
    Method.validate { entered with instructions := body } =
      refusal (firstFinding (m.fault? body) body) := by
  have hentered := entered_eq h
  refine checkFrom_eq ?_ (fun label => ?_) (fun name => ?_) body [] [] fun id => ⟨nofun, nofun⟩
  · rw [hentered]
  · rw [Option.isSome_iff_exists, List.mem_iff_getElem?]
    exact exists_congr (entered_places h label)
  · rw [VarTable.register?_isSome, ← hm.named, hentered, keys_bindTemps, List.mem_append]
    exact or_iff_left (by simp)

theorem installed_entered (hm : m.WellKept)
    (h : Method.enter { m with labels := [] } 0 body = (entered, none)) :
    Installed m body { entered with instructions := body } := by
  have hplaces := entered_places h
  have hkeys := keys_bindTemps m body
  have hseq := hm.sequential.bindAll (tempEntries body)
  have hlimit := hm.sequential.localsLimit_eq
  rw [entered_eq h] at hplaces ⊢
  refine ⟨rfl, rfl, hplaces, fun key register hkey => ?_, fun n id hn => ?_, ?_⟩
  · exact VarTable.register?_grown (m.vars.bindAll_grown _) hkey
  · refine hseq.register?_of_keys ?_
    rw [hkeys, hlimit, List.getElem?_append_right (Nat.le_add_right ..), Nat.add_sub_cancel_left,
      List.getElem?_map, hn]
    rfl
  · have hlength := congrArg List.length hkeys
    rw [List.length_append, List.length_map, ← hlimit] at hlength
    exact hseq.localsLimit_eq.trans hlength

end Entered

/-- Whatever was done to a method before, the installation of a body comes to the verdict on it, and
an accepted body is installed. -/
theorem setBody_verdict {m : Method} (hm : m.Reachable) (body : List Instr) :
    (m.setBody body).1 = m.verdict body ∧
      ((m.setBody body).1 = .ok () → Installed m body (m.setBody body).2) := by
  have hrepeated := enter_repeated body { m with labels := [] } 0 [] fun label => by
    simp [LabelMap.place?]
  simp only [List.nil_append] at hrepeated
  rw [setBody, verdict, ← hrepeated]
  cases henter : Method.enter { m with labels := [] } 0 body with
  | mk entered duplicate =>
    cases duplicate with
    | some label => exact ⟨rfl, fun haccepted => by cases haccepted⟩
    | none =>
      exact ⟨validate_entered hm.wellKept henter, fun _ => installed_entered hm.wellKept henter⟩

/-- A method that was given a body with a repeated label, of which a temporary stays behind. -/
def onceRefused : Method :=
  (((Method.new "f" "A" false .int).addParam ⟨"a", .int⟩).setBody
    [.assignVar (.temp 3 .int) (.operand (.var "a" .int)), .label (.named "l"),
      .label (.named "l")]).2

/-- A loop that assigns the temporary left behind and another one. -/
def loopOnTemps : List Instr :=
  [.label (.named "l"), .assignVar (.temp 7 .int) (.operand (.var "a" .int)),
    .assignVar (.temp 3 .int) (.operand (.temp 7 .int)), .goto (.named "l")]

theorem setBody_verdict_onceRefused : onceRefused.Reachable ∧
    (onceRefused.setBody loopOnTemps).1 = .ok () ∧
      Installed onceRefused loopOnTemps (onceRefused.setBody loopOnTemps).2 := by
  have hm : onceRefused.Reachable :=
    .setBody (.addParam (.new "f" "A" false .int .everyone false) _) _
  obtain ⟨hverdict, hinstalled⟩ := setBody_verdict hm loopOnTemps
  have haccepted : (onceRefused.setBody loopOnTemps).1 = .ok () := hverdict.trans rfl
  exact ⟨hm, haccepted, hinstalled haccepted⟩

end Method

end MiniJava.Ir
