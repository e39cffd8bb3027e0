import MiniJava.Ir.Module
import MiniJava.Proofs.Ir.VarTables

/-!
# Methods that are built step by step

A method begins empty. Parameters and locals are added to it and bodies are installed, some of which
are refused and leave labels and temporaries behind. Whatever the steps were, every variable has one
register, and the names with a register are those of the parameters and the locals.
-/

namespace MiniJava.Ir

namespace Method

/-! ## Entering a body -/

/-- The temporaries that instructions assign, with their types there. -/
def tempEntries (body : List Instr) : List (VarKey × Ty) :=
  body.filterMap fun i => i.definedVar?.map fun entry => (.temp entry.1, entry.2)

theorem tempEntries_some {i : Instr} {entry : Nat × Ty} (h : i.definedVar? = some entry)
    (rest : List Instr) :
    tempEntries (i :: rest) = (.temp entry.1, entry.2) :: tempEntries rest := by
  rw [tempEntries, List.filterMap_cons, h]
  rfl

theorem tempEntries_none {i : Instr} (h : i.definedVar? = none) (rest : List Instr) :
    tempEntries (i :: rest) = tempEntries rest := by
  rw [tempEntries, List.filterMap_cons, h]
  rfl

theorem named_not_mem_tempEntries (body : List Instr) (name : String) :
    .named name ∉ (tempEntries body).map (·.1) := by
  simp [tempEntries]

/-- Instructions are entered up to a repeated label, and all of them where there is none. -/
theorem enter_state (body : List Instr) (m : Method) (place : Nat) :
    ∃ part labels, (m.enter place body).1 =
        { m with vars := m.vars.bindAll (tempEntries part), labels } ∧
      ((m.enter place body).2 = none → part = body) := by
  induction body generalizing m place with
  | nil => exact ⟨[], m.labels, rfl, fun _ => rfl⟩
  | cons i rest ih =>
    rw [enter]
    cases hlabel : i.definedLabel? with
    | some label =>
      have hvar : i.definedVar? = none := by
        cases i <;> cases hlabel
        rfl
      dsimp only
      split
      · exact ⟨[], _, rfl, fun hnone => by cases hnone⟩
      · obtain ⟨part, labels, hstate, hall⟩ :=
          ih { m with labels := m.labels.insert label place } (place + 1)
        refine ⟨i :: part, labels, ?_, fun hnone => by rw [hall hnone]⟩
        rw [hstate, tempEntries_none hvar]
    | none =>
      cases hvar : i.definedVar? with
      | some entry =>
        obtain ⟨part, labels, hstate, hall⟩ :=
          ih { m with vars := m.vars.bind (.temp entry.1) entry.2 } (place + 1)
        refine ⟨i :: part, labels, ?_, fun hnone => by rw [hall hnone]⟩
        dsimp only
        rw [hstate, tempEntries_some hvar]
        rfl
      | none =>
        obtain ⟨part, labels, hstate, hall⟩ := ih m (place + 1)
        refine ⟨i :: part, labels, ?_, fun hnone => by rw [hall hnone]⟩
        dsimp only
        rw [hstate, tempEntries_none hvar]

theorem enter_grown {m m' : Method} {body : List Instr} {place : Nat} {duplicate : Option Label}
    (h : m.enter place body = (m', duplicate)) : m.vars.slots <+: m'.vars.slots := by
  obtain ⟨part, labels, hstate, _⟩ := enter_state body m place
  rw [h] at hstate
  cases hstate
  exact m.vars.bindAll_grown _

theorem setBody_state (m : Method) (body : List Instr) :
    ∃ part instructions labels, (m.setBody body).2 =
      { m with vars := m.vars.bindAll (tempEntries part), instructions, labels } := by
  obtain ⟨part, labels, hstate, _⟩ := enter_state body { m with labels := [] } 0
  rw [setBody]
  cases henter : Method.enter { m with labels := [] } 0 body with
  | mk entered duplicate =>
    rw [henter] at hstate
    cases hstate
    cases duplicate with
    | some label => exact ⟨part, m.instructions, labels, rfl⟩
    | none => exact ⟨part, body, labels, rfl⟩

theorem setBody_grown {m m' : Method} {body : List Instr} {result : Except CompileError Unit}
    (h : m.setBody body = (result, m')) : m.vars.slots <+: m'.vars.slots := by
  obtain ⟨part, instructions, labels, hstate⟩ := setBody_state m body
  rw [h] at hstate
  cases hstate
  exact m.vars.bindAll_grown _

/-! ## Methods in the making -/

/-- The methods that come from an empty one by adding parameters and locals and by installing
bodies, whether these are accepted or refused. -/
inductive Reachable : Method → Prop
  | new (name className : String) (isStatic : Bool) (returnTy : Ty) (access : Access)
      (isFinal : Bool) :
      Reachable { Method.new name className isStatic returnTy with access, isFinal }
  | addParam {m : Method} (h : Reachable m) (param : Variable) : Reachable (m.addParam param)
  | addLocal {m : Method} (h : Reachable m) (var : Variable) : Reachable (m.addLocal var)
  | setBody {m : Method} (h : Reachable m) (body : List Instr) : Reachable (m.setBody body).2

/-- The names of the parameters and the locals. -/
def names (m : Method) : List String :=
  m.params.map (·.name) ++ m.locals.map (·.name)

/-- The variables have the registers in their order, and the names with a register are those that are
declared. -/
structure WellKept (m : Method) : Prop where
  sequential : m.vars.Sequential
  named : ∀ name, .named name ∈ m.vars.keys ↔ name ∈ m.names

theorem Reachable.wellKept {m : Method} (h : m.Reachable) : m.WellKept := by
  induction h with
  | new name className isStatic returnTy access isFinal =>
    cases isStatic with
    | true => exact ⟨.empty, fun name => ⟨nofun, nofun⟩⟩
    | false =>
      refine ⟨VarTable.Sequential.empty.bind _ _, fun name => ⟨fun h => ?_, nofun⟩⟩
      cases List.mem_singleton.mp h
  | addParam h param ih =>
    refine ⟨ih.sequential.bind _ _, fun name => ?_⟩
    rw [Method.addParam, VarTable.mem_keys_bind, ih.named]
    simp [names, or_comm, or_left_comm]
  | addLocal h var ih =>
    refine ⟨ih.sequential.bind _ _, fun name => ?_⟩
    rw [Method.addLocal, VarTable.mem_keys_bind, ih.named]
    simp [names, or_assoc]
  | @setBody m h body ih =>
    obtain ⟨part, instructions, labels, hstate⟩ := setBody_state m body
    rw [hstate]
    refine ⟨ih.sequential.bindAll _, fun name => ?_⟩
    rw [VarTable.keys_bindAll, List.mem_append, List.mem_eraseDups, List.mem_filter]
    exact (or_iff_left fun hnew => named_not_mem_tempEntries part name hnew.1).trans
      (ih.named name)

end Method

end MiniJava.Ir
