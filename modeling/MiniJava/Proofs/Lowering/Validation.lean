import MiniJava.Proofs.Lowering.Registers
import MiniJava.Proofs.Lowering.Temporaries

/-!
# Lowered bodies are accepted

A body that is installed is checked: its labels are distinct, its jumps go to labels of the body,
temporaries are assigned in front of their uses, names have registers. Code that lowering gives
passes, so that lowering fails only for what is wrong with a program.
-/

namespace MiniJava

/-! ## Registers of names -/

namespace Lowering

open Ir.VarTable

theorem frame_named (className : String) (m : Method) {name : String} {ty : Ty}
    (h : Scope.localTy? m name = some ty) :
    ((frame className m).vars.register? (.named name)).isSome := by
  rw [register?_isSome, frame_vars_bind, ofList, mem_keys_bindAll, declaredRegisters, firstRegisters,
    List.map_append, List.map_append, List.mem_append, List.mem_append, List.map_map, List.map_map]
  rw [Scope.localTy?] at h
  cases hlocal : m.locals.find? (·.name == name) with
  | some var =>
    have hname := eq_of_beq (List.find?_some (p := fun var : Variable => var.name == name) hlocal)
    refine .inr (.inr (List.mem_map.mpr ⟨var, List.mem_of_find?_eq_some hlocal, ?_⟩))
    rw [← hname]
    rfl
  | none =>
    rw [hlocal] at h
    obtain ⟨p, hp, _⟩ := Option.map_eq_some_iff.mp h
    have hname := eq_of_beq (List.find?_some (p := fun p : Param => p.name == name) hp)
    refine .inr (.inl (.inr (List.mem_map.mpr ⟨p, List.mem_of_find?_eq_some hp, ?_⟩)))
    rw [← hname]
    rfl

end Lowering

/-! ## Acceptance -/

namespace Ir.Method

theorem enter_accepts : ∀ (body : List Instr) (m : Method) (place : Nat), (labelsOf body).Nodup →
    (∀ l ∈ labelsOf body, m.labels.place? l = none) → (m.enter place body).2 = none
  | [], m, place, _, _ => rfl
  | i :: rest, m, place, hnodup, hnew => by
    rw [labelsOf_cons] at hnodup hnew
    rw [enter]
    cases hlabel : i.definedLabel? with
    | some label =>
      rw [show Control.marks? i = some label from hlabel] at hnodup hnew
      obtain ⟨hlabel', hrest⟩ := List.nodup_cons.mp hnodup
      dsimp only
      rw [if_neg (by rw [hnew label List.mem_cons_self]; exact Bool.false_ne_true)]
      refine enter_accepts rest _ _ hrest fun l hl => ?_
      show (m.labels.insert label place).place? l = none
      rw [LabelMap.place_insert_of_ne]
      · exact hnew l (List.mem_cons_of_mem _ hl)
      · rintro rfl
        exact hlabel' hl
    | none =>
      rw [show Control.marks? i = none from hlabel] at hnodup hnew
      cases i.definedVar? with
      | none => exact enter_accepts rest _ _ hnodup hnew
      | some entry =>
        exact enter_accepts rest { m with vars := m.vars.bind (.temp entry.1) entry.2 } _ hnodup hnew

end Ir.Method

namespace Semantics

open Ir (Operand Instr)
open Lowering

variable {c : Context} {d : Method}

theorem localTy_of_meaning (hc : c.method = .ofMethod d) {name : String} {ty : Ty}
    (h : c.meaning name = .var ty) : Scope.localTy? d name = some ty := by
  rw [Context.meaning, hc] at h
  rw [Scope.localTy?]
  cases hlocal : d.locals.find? (·.name == name) with
  | some var =>
    simp only [show (Signature.ofMethod d).local? name = some var from hlocal] at h
    cases h
    rfl
  | none =>
    cases hparam : d.params.find? (·.name == name) with
    | some param =>
      simp only [show (Signature.ofMethod d).local? name = none from hlocal,
        show (Signature.ofMethod d).param? name = some param from hparam] at h
      cases h
      rfl
    | none =>
      simp only [show (Signature.ofMethod d).local? name = none from hlocal,
        show (Signature.ofMethod d).param? name = none from hparam] at h
      cases hfield : c.symbols.field? name with
      | some field =>
        simp only [hfield] at h
        cases h
      | none =>
        simp only [hfield] at h
        split at h <;> cases h

theorem checkOperand_ok {m : Ir.Method} (hnames : ∀ name ty, c.meaning name = .var ty →
    (m.vars.register? (.named name)).isSome) {defs : List (Nat × Ty)} {o : Operand}
    (h : Held c defs o) : m.checkOperand (defs.map (·.1)) o = .ok () := by
  cases o with
  | temp id ty => exact if_pos (List.mem_map_of_mem (f := (·.1)) h)
  | var name ty => exact if_pos (hnames name ty h)
  | literal | receiver | classRef => rfl

theorem checkFrom_ok {m : Ir.Method}
    (hnames : ∀ name ty, c.meaning name = .var ty → (m.vars.register? (.named name)).isSome) :
    ∀ {body : List Instr} {defs : List (Nat × Ty)},
      (∀ l ∈ targetsOf body, (m.labels.place? l).isSome) → ReadsInOrder c [] defs body →
        m.checkFrom (defs.map (·.1)) body = .ok ()
  | [], _, _, _ => rfl
  | i :: rest, defs, htargets, hreads => by
    rw [targetsOf_cons] at htargets
    have hjump : m.checkJump i = .ok () := by
      rw [Ir.Method.checkJump]
      cases htarget : i.jumpTarget? with
      | none => rfl
      | some l =>
        refine if_pos (htargets l ?_)
        rw [show Control.jumps? i = some l from htarget]
        exact List.mem_cons_self
    have hoperands : ∀ {os : List Operand}, MayRead c [] defs os →
        os.forM (m.checkOperand (defs.map (·.1))) = .ok () := by
      intro os hos
      induction os with
      | nil => rfl
      | cons o rest ih =>
        show (m.checkOperand (defs.map (·.1)) o >>= fun _ =>
          rest.forM (m.checkOperand (defs.map (·.1)))) = _
        rw [checkOperand_ok hnames ((hos o List.mem_cons_self).resolve_left List.not_mem_nil)]
        exact ih fun o ho => hos o (List.mem_cons_of_mem _ ho)
    have hrest := checkFrom_ok hnames (fun l hl => htargets l (List.mem_append_right _ hl)) hreads.2
    have hdefs : (i.definedVar?.toList ++ defs).map (·.1) = i.definedTemp?.toList ++ defs.map (·.1) := by
      rw [List.map_append, Instr.definedTemp?]
      cases i.definedVar? <;> rfl
    rw [hdefs] at hrest
    rw [Ir.Method.checkFrom, hjump, hoperands hreads.1]
    exact hrest

/-- Lowered code is accepted as the body of its method. -/
theorem Code.accepted {Φ : Instr → Prop} {os : List Operand} {k k' : Counters} {code : List Instr}
    (hc : c.method = .ofMethod d) (h : Code c Φ [] k code os k') (className : String) :
    ∃ ir, (frame className d).setBody code = (.ok (), ir) := by
  have haccepts := Ir.Method.enter_accepts code { frame className d with labels := [] } 0
    h.labels_nodup fun _ _ => rfl
  rw [Ir.Method.setBody]
  cases henter : Ir.Method.enter { frame className d with labels := [] } 0 code with
  | mk entered duplicate =>
    rw [henter] at haccepts
    cases haccepts
    obtain ⟨_, _, hplaces⟩ := Ir.Method.enter_places code _ 0 henter
    have hvars := Ir.Method.enter_grown henter
    refine ⟨_, Prod.ext ?_ rfl⟩
    refine checkFrom_ok (m := { entered with instructions := code }) (c := c)
      (fun name ty hty => ?_) (fun l hl => ?_) h.readsInOrder
    · exact Ir.VarTable.register?_isSome_grown hvars
        (frame_named className d (localTy_of_meaning hc hty))
    · obtain ⟨n, i, hn, hi⟩ := mem_labelsOf.mp (h.targets_marked l hl)
      have hlabel : i = .label l := by
        cases i <;> cases hi
        rfl
      subst hlabel
      have hplace := hplaces n l hn
      show (entered.labels.place? l).isSome
      rw [hplace]
      rfl

end Semantics

end MiniJava
