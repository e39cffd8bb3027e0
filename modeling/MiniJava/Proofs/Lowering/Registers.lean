import MiniJava.Proofs.Ir.Reachable
import MiniJava.Proofs.Lowering.Layout
import MiniJava.Proofs.Semantics.Intermediate

/-!
# The registers of lowered methods

A register belongs to one variable only, and it stays with it. The receiver has the first one, and
parameters of different names have the next ones in their order.
-/

namespace MiniJava.Lowering

open Ir (VarKey VarTable)

/-! ## The frame of a method -/

/-- The registers of the receiver and the parameters. -/
def firstRegisters (className : String) (m : Method) : List (VarKey × Ty) :=
  (if m.isStatic then [] else [(.receiver, .object className)])
    ++ m.params.map fun p => (.named p.name, p.ty)

theorem firstRegisters_nodup (className : String) {m : Method}
    (h : (m.params.map (·.name)).Nodup) : ((firstRegisters className m).map (·.1)).Nodup := by
  have hnamed : (m.params.map fun p => VarKey.named p.name).Nodup := by
    have hinj : ((m.params.map (·.name)).map VarKey.named).Nodup :=
      List.Pairwise.map VarKey.named (fun a b hab heq => hab (VarKey.named.inj heq)) h
    rwa [List.map_map] at hinj
  rw [firstRegisters, List.map_append, List.map_map]
  cases m.isStatic with
  | true => exact hnamed
  | false =>
    refine List.nodup_cons.mpr ⟨fun hmem => ?_, hnamed⟩
    obtain ⟨p, _, hp⟩ := List.mem_map.mp hmem
    cases hp

/-- The registers of the receiver, the parameters and the locals. -/
def declaredRegisters (className : String) (m : Method) : List (VarKey × Ty) :=
  firstRegisters className m ++ m.locals.map fun var => (.named var.name, var.ty)

theorem declaredRegisters_nodup (className : String) {m : Method}
    (h : (m.params.map (·.name) ++ m.locals.map (·.name)).Nodup) :
    ((declaredRegisters className m).map (·.1)).Nodup := by
  -- locals have registers like further parameters
  let params := m.params ++ m.locals.map fun var => { name := var.name, ty := var.ty }
  have hall : declaredRegisters className m = firstRegisters className { m with params } := by
    simp [declaredRegisters, firstRegisters, params]
  rw [hall]
  refine firstRegisters_nodup className ?_
  rw [List.map_append, List.map_map]
  exact h

theorem foldl_addParam_bind : ∀ (params : List Param) (f : Ir.Method),
    (params.foldl (fun f p => f.addParam { name := p.name, ty := p.ty }) f).vars =
      f.vars.bindAll (params.map fun p => (VarKey.named p.name, p.ty))
  | [], _ => rfl
  | p :: rest, f => foldl_addParam_bind rest (f.addParam { name := p.name, ty := p.ty })

theorem foldl_addLocal_bind : ∀ (locals : List Variable) (f : Ir.Method),
    (locals.foldl (·.addLocal ·) f).vars =
      f.vars.bindAll (locals.map fun var => (VarKey.named var.name, var.ty))
  | [], _ => rfl
  | var :: rest, f => foldl_addLocal_bind rest (f.addLocal var)

theorem frame_vars_bind (className : String) (m : Method) : (frame className m).vars =
    VarTable.ofList (declaredRegisters className m) := by
  have hnew : (Ir.Method.new m.name className m.isStatic m.returnTy).vars =
      VarTable.bindAll {} (if m.isStatic then [] else [(.receiver, .object className)]) := by
    rw [Ir.Method.new]
    cases m.isStatic <;> rfl
  rw [frame, foldl_addLocal_bind, foldl_addParam_bind, VarTable.ofList, declaredRegisters,
    firstRegisters, VarTable.bindAll_append, VarTable.bindAll_append, ← hnew]

theorem frame_vars (className : String) (m : Method) (hparams : (m.params.map (·.name)).Nodup) :
    firstRegisters className m <+: (frame className m).vars.toList := by
  have hfirst := VarTable.bindAll_new {} _ (firstRegisters_nodup className hparams)
  rw [frame_vars_bind, VarTable.ofList, declaredRegisters, VarTable.bindAll_append]
  refine .trans ?_ (VarTable.toList_grown (VarTable.bindAll_grown _ _))
  rw [hfirst]
  exact List.prefix_refl _

theorem frame_vars_declared (className : String) (m : Method)
    (hnames : (m.params.map (·.name) ++ m.locals.map (·.name)).Nodup) :
    (frame className m).vars.toList = declaredRegisters className m := by
  rw [frame_vars_bind, VarTable.ofList, VarTable.bindAll_new {} _ (declaredRegisters_nodup className hnames)]
  rfl

section Lowered

variable {symbols : SymbolTable} {m : Method} {k k' : Counters} {ir : Ir.Method}

theorem foldl_addParam_reachable : ∀ (params : List Param) {f : Ir.Method}, f.Reachable →
    (params.foldl (fun f p => f.addParam { name := p.name, ty := p.ty }) f).Reachable
  | [], _, h => h
  | p :: rest, _, h => foldl_addParam_reachable rest (h.addParam { name := p.name, ty := p.ty })

theorem foldl_addLocal_reachable : ∀ (locals : List Variable) {f : Ir.Method}, f.Reachable →
    (locals.foldl (·.addLocal ·) f).Reachable
  | [], _, h => h
  | var :: rest, _, h => foldl_addLocal_reachable rest (h.addLocal var)

theorem lowerMethod_reachable (h : Gives (lowerMethod symbols m) k ir k') : ir.Reachable := by
  have hframe : (frame symbols.className m).Reachable :=
    foldl_addLocal_reachable m.locals (foldl_addParam_reachable m.params
      (.new m.name symbols.className m.isStatic m.returnTy m.access m.isFinal))
  have hbody := hframe.setBody ir.instructions
  rwa [(lowerMethod_installs h).2] at hbody

theorem lowerMethod_frame (h : Gives (lowerMethod symbols m) k ir k') :
    (frame symbols.className m).vars.slots <+: ir.vars.slots :=
  Ir.Method.setBody_grown (lowerMethod_installs h).2

/-- The receiver and the parameters have the first registers of a lowered method. -/
theorem lowerMethod_vars (hparams : (m.params.map (·.name)).Nodup)
    (h : Gives (lowerMethod symbols m) k ir k') :
    firstRegisters symbols.className m <+: ir.vars.toList :=
  (frame_vars symbols.className m hparams).trans (VarTable.toList_grown (lowerMethod_frame h))

theorem lowerMethod_declared (hnames : (m.params.map (·.name) ++ m.locals.map (·.name)).Nodup)
    (h : Gives (lowerMethod symbols m) k ir k') :
    declaredRegisters symbols.className m <+: ir.vars.toList := by
  rw [← frame_vars_declared symbols.className m hnames]
  exact VarTable.toList_grown (lowerMethod_frame h)

end Lowered

end MiniJava.Lowering

namespace MiniJava.Semantics

open Ir (VarKey VarTable)
open Lowering

/-! ## The registers at the start -/

theorem lookup_zip {names : List String} {args : List Value} {name : String} {v : Value}
    (h : argument? names args name = some v) :
    ∃ i : Nat, names[i]? = some name ∧ args[i]? = some v := by
  induction names generalizing args with
  | nil => cases h
  | cons first rest ih =>
    cases args with
    | nil => cases h
    | cons arg args =>
      rw [argument?, List.zip_cons_cons, List.lookup_cons] at h
      by_cases hname : name = first
      · rw [hname, beq_self_eq_true] at h
        cases h
        exact ⟨0, by rw [hname]; rfl, rfl⟩
      · rw [beq_false_of_ne hname] at h
        obtain ⟨i, hi, hv⟩ := ih h
        exact ⟨i + 1, hi, hv⟩

/-- The receiver and the arguments are in the registers of their variables. -/
theorem start_registers {className : String} {m : Method} {ir : Ir.Method}
    (hstatic : ir.isStatic = m.isStatic)
    (hparams : ir.params = m.params.map (fun p => { name := p.name, ty := p.ty }))
    (hseq : ir.vars.Sequential) (hvars : firstRegisters className m <+: ir.vars.toList) {self : Value}
    {args : List Value} {key : Ir.VarKey} {v : Value} (hv : irStart ir self args key = some v)
    {register : Nat} (hregister : ir.vars.register? key = some register) :
    ((if ir.isStatic then [] else [self]) ++ args)[register]? = some v := by
  have hfirst : ∀ {place : Nat} {ty : Ty},
      (firstRegisters className m)[place]? = some (key, ty) → register = place := by
    intro place ty hplace
    have hslot := hseq.slot?_of_front hvars hplace
    rw [VarTable.register?_eq_some.mpr ⟨ty, hslot⟩] at hregister
    exact (Option.some.inj hregister).symm
  rw [hstatic]
  cases key with
  | receiver =>
    have hv : (if ir.isStatic then none else some self) = some v := hv
    rw [hstatic] at hv
    cases hm : m.isStatic with
    | true =>
      rw [hm] at hv
      cases hv
    | false =>
      rw [hm] at hv
      cases hv
      have hentry : (firstRegisters className m)[0]? = some (.receiver, .object className) := by
        rw [firstRegisters, hm]
        rfl
      rw [hfirst hentry]
      rfl
  | named name =>
    obtain ⟨i, hi, harg⟩ := lookup_zip hv
    rw [hparams, List.map_map, List.getElem?_map, Option.map_eq_some_iff] at hi
    obtain ⟨p, hp, hname⟩ := hi
    have hplace : ∀ {front : List (VarKey × Ty)}, (front ++ m.params.map fun p =>
        (VarKey.named p.name, p.ty))[front.length + i]? = some (.named name, p.ty) := by
      intro front
      rw [List.getElem?_append_right (Nat.le_add_right _ _), Nat.add_sub_cancel_left,
        List.getElem?_map, hp, ← hname]
      rfl
    cases hm : m.isStatic with
    | true =>
      have hentry : (firstRegisters className m)[0 + i]? = some (.named name, p.ty) := by
        rw [firstRegisters, hm]
        exact hplace
      rw [hfirst hentry, Nat.zero_add]
      exact harg
    | false =>
      have hentry : (firstRegisters className m)[1 + i]? = some (.named name, p.ty) := by
        rw [firstRegisters, hm]
        exact hplace
      rw [hfirst hentry, Nat.add_comm]
      exact harg
  | temp id => cases hv

end MiniJava.Semantics
