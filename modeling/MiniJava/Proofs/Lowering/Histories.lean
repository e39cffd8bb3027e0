import MiniJava.Proofs.Lowering.Failures
import MiniJava.Proofs.Lowering.Modules
import MiniJava.Proofs.Lowering.Raising

/-!
# Histories of lowering

A session hands only its counters on from step to step. A method or a program that is lowered after
any other steps, failed ones included, becomes what it becomes in a fresh session, its numbers raised
by those given out so far; and the results of different steps define different labels and
temporaries.
-/

namespace MiniJava

open Ir (Instr Operand VarKey VarTable LabelMap)
open Lowering

open HasNumbers (raise Below)

/-! ## Tables -/

instance : HasNumbers VarKey where
  raise up
    | .temp id => .temp (id + up.temps)
    | key => key
  Below k
    | .temp id => id < k.temps
    | _ => True
  mono {k k' key} hle h := by
    cases key with
    | temp id => exact Nat.lt_of_lt_of_le h hle.1
    | _ => trivial

section Tables

variable {up : Counters}

theorem raise_key_inj {key key' : VarKey} (h : raise up key = raise up key') : key = key' := by
  cases key with
  | receiver | named =>
    cases key' with
    | receiver | named => exact h
    | temp => cases h
  | temp id =>
    cases key' with
    | receiver | named => cases h
    | temp id' => exact congrArg _ (Nat.add_right_cancel (VarKey.temp.inj h))

theorem raise_label_inj {l l' : Label} (h : raise up l = raise up l') : l = l' := by
  cases l with
  | named name =>
    cases l' with
    | named => exact h
    | numbered => cases h
  | numbered role n =>
    cases l' with
    | named => cases h
    | numbered role' n' =>
      obtain ⟨rfl, hn⟩ := Label.numbered.inj h
      exact congrArg _ (Nat.add_right_cancel hn)

/-- A table of variables with its keys raised. -/
def raiseVars (up : Counters) (t : VarTable) : VarTable :=
  { t with slots := t.slots.map fun entry => (raise up entry.1, entry.2) }

/-- A map of labels with its labels raised. -/
def raiseLabels (up : Counters) (m : LabelMap) : LabelMap :=
  m.map fun entry => (raise up entry.1, entry.2)

theorem lookup_map_keys {α β : Type} [DecidableEq α] {f : α → α} (hf : ∀ a b, f a = f b → a = b)
    (entries : List (α × β)) (a : α) :
    (entries.map fun entry => (f entry.1, entry.2)).lookup (f a) = entries.lookup a := by
  induction entries with
  | nil => rfl
  | cons entry rest ih =>
    rw [List.map_cons, List.lookup_cons, ih, List.lookup_cons]
    have hbeq : (f a == f entry.1) = (a == entry.1) :=
      Bool.eq_iff_iff.mpr (by simpa using ⟨hf a entry.1, congrArg f⟩)
    rw [hbeq]

theorem slot_raise (t : VarTable) (key : VarKey) :
    (raiseVars up t).slot? (raise up key) = t.slot? key :=
  lookup_map_keys (fun _ _ => raise_key_inj) t.slots key

theorem bind_raise (t : VarTable) (key : VarKey) (ty : Ty) :
    (raiseVars up t).bind (raise up key) ty = raiseVars up (t.bind key ty) := by
  rw [VarTable.bind, VarTable.bind, slot_raise]
  split
  · rfl
  · rw [raiseVars, raiseVars, List.map_append]
    rfl

theorem place_raise (m : LabelMap) (l : Label) :
    (raiseLabels up m).place? (raise up l) = m.place? l :=
  lookup_map_keys (fun _ _ => raise_label_inj) m l

theorem insert_raise (m : LabelMap) (l : Label) (place : Nat) :
    (raiseLabels up m).insert (raise up l) place = raiseLabels up (m.insert l place) := by
  rw [LabelMap.insert, LabelMap.insert, raiseLabels, raiseLabels, List.map_cons, List.filter_map]
  congr 3
  funext entry
  exact Bool.eq_iff_iff.mpr (by
    simpa using not_congr ⟨raise_label_inj, congrArg (raise up)⟩)

end Tables

/-! ## Methods -/

instance : HasNumbers Ir.Method where
  raise up m := { m with
    vars := raiseVars up m.vars, instructions := raise up m.instructions
    labels := raiseLabels up m.labels }
  Below k m := Below k m.instructions
  mono hle h := HasNumbers.mono hle h

section Methods

variable {up : Counters}

theorem definedLabel_raise (i : Instr) :
    (raise up i).definedLabel? = i.definedLabel?.map (raise up) := by
  cases i <;> rfl

theorem definedVar_raise (i : Instr) :
    (raise up i).definedVar? = i.definedVar?.map fun entry => (entry.1 + up.temps, entry.2) := by
  cases i with
  | assign dest value =>
    cases dest with
    | var o => cases o <;> rfl
    | element => rfl
  | _ => rfl

theorem enter_raise : ∀ (code : List Instr) (m : Ir.Method) (place : Nat),
    (raise up m).enter place (raise up code) =
      (raise up (m.enter place code).1, (m.enter place code).2.map (raise up))
  | [], m, place => rfl
  | i :: rest, m, place => by
    rw [raise_cons, Ir.Method.enter, Ir.Method.enter, definedLabel_raise, definedVar_raise]
    cases hlabel : i.definedLabel? with
    | some label =>
      have hentered : ({ raise up m with
          labels := (raise up m).labels.insert (raise up label) place } : Ir.Method) =
          raise up { m with labels := m.labels.insert label place } := by
        show Ir.Method.mk _ _ _ _ _ _ _ _ _ _ = Ir.Method.mk _ _ _ _ _ _ _ _ _ _
        congr 1
        exact insert_raise m.labels label place
      simp only [Option.map_some, hentered]
      rw [show (raise up m).labels.place? (raise up label) = m.labels.place? label from
        place_raise m.labels label]
      split
      · rfl
      · exact enter_raise rest _ _
    | none =>
      cases hvar : i.definedVar? with
      | none => exact enter_raise rest m _
      | some entry =>
        obtain ⟨id, ty⟩ := entry
        have hbound : ({ raise up m with
            vars := (raise up m).vars.bind (.temp (id + up.temps)) ty } : Ir.Method) =
            raise up { m with vars := m.vars.bind (.temp id) ty } := by
          show Ir.Method.mk _ _ _ _ _ _ _ _ _ _ = Ir.Method.mk _ _ _ _ _ _ _ _ _ _
          congr 1
          exact bind_raise m.vars (.temp id) ty
        simp only [Option.map_some, Option.map_none, hbound]
        exact enter_raise rest _ _

theorem raise_frame (className : String) (m : Method) :
    raise up (frame className m) = frame className m := by
  have haddParam : ∀ (f : Ir.Method) (p : Param),
      (raise up f).addParam { name := p.name, ty := p.ty } =
        raise up (f.addParam { name := p.name, ty := p.ty }) := by
    intro f p
    show Ir.Method.mk _ _ _ _ _ _ _ _ _ _ = Ir.Method.mk _ _ _ _ _ _ _ _ _ _
    congr 1
    exact bind_raise f.vars (.named p.name) p.ty
  have haddLocal : ∀ (f : Ir.Method) (var : Variable),
      (raise up f).addLocal var = raise up (f.addLocal var) := by
    intro f var
    show Ir.Method.mk _ _ _ _ _ _ _ _ _ _ = Ir.Method.mk _ _ _ _ _ _ _ _ _ _
    congr 1
    exact bind_raise f.vars (.named var.name) var.ty
  have hempty : ∀ access isFinal, (raise up { Ir.Method.new m.name className m.isStatic m.returnTy with
      access, isFinal }) = { Ir.Method.new m.name className m.isStatic m.returnTy with
      access, isFinal } := by
    intro access isFinal
    show Ir.Method.mk _ _ _ _ _ _ _ _ _ _ = Ir.Method.mk _ _ _ _ _ _ _ _ _ _
    congr 1
    rw [Ir.Method.new]
    cases m.isStatic <;> rfl
  have hparams : ∀ f, m.params.foldl
      (fun (f : Ir.Method) p => f.addParam { name := p.name, ty := p.ty }) (raise up f) =
      raise up (m.params.foldl (fun f p => f.addParam { name := p.name, ty := p.ty }) f) :=
    fun f => List.foldl_hom (raise up) haddParam
  have hlocals : ∀ f : Ir.Method, m.locals.foldl (·.addLocal ·) (raise up f) =
      raise up (m.locals.foldl (·.addLocal ·) f) :=
    fun f => List.foldl_hom (raise up) haddLocal
  rw [frame, ← hlocals, ← hparams, hempty]

/-- Where a body and the raised body are accepted, the methods with them differ only in numbers. -/
theorem setBody_raise {className : String} {m : Method} {code : List Instr} {ir ir' : Ir.Method}
    (h : (frame className m).setBody code = (.ok (), ir))
    (h' : (frame className m).setBody (raise up code) = (.ok (), ir')) : ir' = raise up ir := by
  have hframe : ({ frame className m with labels := [] } : Ir.Method) =
      raise up { frame className m with labels := [] } := by
    have hraise : raise up (frame className m) = frame className m := raise_frame className m
    show Ir.Method.mk _ _ _ _ _ _ _ _ _ _ = Ir.Method.mk _ _ _ _ _ _ _ _ _ _
    congr 1
    · exact (congrArg Ir.Method.vars hraise).symm
    · exact (congrArg Ir.Method.instructions hraise).symm
  rw [Ir.Method.setBody] at h h'
  rw [hframe, enter_raise] at h'
  cases henter : ({ frame className m with labels := [] } : Ir.Method).enter 0 code with
  | mk entered duplicate =>
    rw [henter] at h h'
    cases duplicate with
    | some label => cases h
    | none =>
      obtain ⟨_, rfl⟩ := Prod.mk.inj h
      exact (Prod.mk.inj h').2.symm

theorem steady_lowerMethod (symbols : SymbolTable) (m : Method) : Steady (lowerMethod symbols m) := by
  intro up k
  have hbody := steady_lowerBody symbols m up k
  refine hbody.bind_of_gives fun code k' h _ hcode => ?_
  have h' : Gives (lowerBody symbols m) (k + up) (raise up code) (k' + up) := by
    have hrun := hbody.run
    rw [show (((lowerBody symbols m).run).run k) = (.ok code, k') from h] at hrun
    exact hrun
  obtain ⟨ir, hset⟩ := (Semantics.lowerBody_code h).accepted rfl symbols.className
  obtain ⟨ir', hset'⟩ := (Semantics.lowerBody_code h').accepted rfl symbols.className
  cases setBody_raise hset hset'
  simp only [hset, hset']
  refine .lift_bind fun _ _ => .pure ?_ rfl
  have hinstructions := (Ir.Method.setBody_ok hset).2.1
  show Below k' ir.instructions
  rw [hinstructions]
  exact hcode

end Methods

/-! ## Steps of a session -/

instance : HasNumbers Ir.Class where
  raise up c := { c with methods := raise up c.methods }
  Below k c := Below k c.methods
  mono hle h := HasNumbers.mono hle h

instance : HasNumbers Ir.Module where
  raise up m := { classes := raise up m.classes }
  Below k m := Below k m.classes
  mono hle h := HasNumbers.mono hle h

/-- Over the same symbols, from counters that are raised, one step of a session gives what another
one does, its numbers raised. -/
structure Agrees {α : Type} [HasNumbers α] (up : Counters) (s : Session)
    (o o' : Except CompileError α × Session) : Prop where
  result : o'.1 = o.1.map (raise up)
  counters : o'.2.counters = o.2.counters + up
  symbols : o.2.symbols = s.symbols
  symbols' : o'.2.symbols = s.symbols
  le : s.counters ≤ o.2.counters
  below : ∀ a, o.1 = .ok a → Below o.2.counters a

/-- From any session with the counters raised one step does what another one does in a session. What
the current methods are does not matter. -/
def StepFollows {α : Type} [HasNumbers α] (up : Counters) (s : Session) (x y : Step α) : Prop :=
  ∀ s' : Session, s'.symbols = s.symbols → s'.counters = s.counters + up →
    Agrees up s ((x.run).run s) ((y.run).run s')

namespace StepFollows

variable {α β γ : Type} [HasNumbers α] [HasNumbers β] {up : Counters} {s : Session}

theorem pure {a b : α} (h : Below s.counters a) (hb : b = raise up a) :
    StepFollows up s (Pure.pure a : Step α) (Pure.pure b) := by
  subst hb
  intro s' hsymbols hcounters
  refine ⟨rfl, hcounters, rfl, hsymbols, Counters.le_refl _, fun a' ha => ?_⟩
  cases ha
  exact h

theorem bind {x y : Step α} {f g : α → Step β} (h : StepFollows up s x y)
    (hf : ∀ a t, s.counters ≤ t.counters → Below t.counters a →
      StepFollows up t (f a) (g (raise up a))) :
    StepFollows up s (x >>= f) (y >>= g) := by
  intro s' hsymbols hcounters
  have hx := h s' hsymbols hcounters
  rw [run_bind, run_bind]
  cases hrun : (x.run).run s with
  | mk r t =>
    cases hrun' : (y.run).run s' with
    | mk r' t' =>
      rw [hrun, hrun'] at hx
      obtain ⟨hresult, hcounters, hsymbols, hsymbols', hle, hbelow⟩ := hx
      cases hresult
      cases r with
      | error e => exact ⟨rfl, hcounters, hsymbols, hsymbols', hle, nofun⟩
      | ok a =>
        obtain ⟨hresult, hnext, ht, ht', hle', hbelow'⟩ :=
          hf a t hle (hbelow a rfl) t' (hsymbols'.trans hsymbols.symm) hcounters
        exact ⟨hresult, hnext, ht.trans hsymbols, ht'.trans hsymbols, Counters.le_trans hle hle', hbelow'⟩

theorem const_bind {x : Step γ} {r : Except CompileError γ} (hx : ∀ s, (x.run).run s = (r, s))
    {f g : γ → Step β} (hf : ∀ c, StepFollows up s (f c) (g c)) :
    StepFollows up s (x >>= f) (x >>= g) := by
  intro s' hsymbols hcounters
  rw [run_bind, run_bind, hx, hx]
  cases r with
  | error e => exact ⟨rfl, hcounters, rfl, hsymbols, Counters.le_refl _, nofun⟩
  | ok c => exact hf c s' hsymbols hcounters

end StepFollows

section Steps

variable {up : Counters} {s : Session}

theorem session_lowerMethod_follows (m : Method) :
    StepFollows up s (Session.lowerMethod m) (Session.lowerMethod m) := by
  intro s' hsymbols hcounters
  rw [session_lowerMethod_run, session_lowerMethod_run, hsymbols, hcounters]
  obtain ⟨hle, hbelow, hrun⟩ := steady_lowerMethod s.symbols m up s.counters
  rw [hrun]
  cases hm : ((lowerMethod s.symbols m).run).run s.counters with
  | mk r k =>
    rw [hm] at hle hbelow
    cases r with
    | error e => exact ⟨rfl, rfl, rfl, rfl, hle, nofun⟩
    | ok ir => exact ⟨rfl, rfl, rfl, rfl, hle, hbelow⟩

theorem session_lowerMethods_follows : ∀ (methods : List Method) (s : Session),
    StepFollows up s (Session.lowerMethods methods) (Session.lowerMethods methods)
  | [], s => .pure below_nil rfl
  | m :: rest, s => by
    rw [Session.lowerMethods]
    exact (session_lowerMethod_follows m).bind fun ir t _ hir =>
      (session_lowerMethods_follows rest t).bind fun irs t' hle hirs =>
      .pure (below_cons.mpr ⟨HasNumbers.mono hle hir, hirs⟩) rfl

theorem lowerFields_run : ∀ (fields : List Field),
    ∃ r : Except CompileError (List Ir.Field), ∀ s : Session,
      ((fields.mapM (m := Step) (fun f => liftM (lowerField f))).run).run s = (r, s)
  | [] => ⟨.ok [], fun s => by rw [List.mapM_nil]; rfl⟩
  | f :: rest => by
    obtain ⟨r, hr⟩ := lowerFields_run rest
    cases hf : lowerField f with
    | error e => exact ⟨.error e, fun s => by rw [List.mapM_cons, hf]; rfl⟩
    | ok field =>
      cases r with
      | error e =>
        refine ⟨.error e, fun s => ?_⟩
        rw [List.mapM_cons, hf, run_bind]
        show (((rest.mapM (m := Step) (fun f => liftM (lowerField f)) >>= fun fs =>
          pure (field :: fs)).run).run s) = _
        rw [run_bind, hr]
      | ok fs =>
        refine ⟨.ok (field :: fs), fun s => ?_⟩
        rw [List.mapM_cons, hf, run_bind]
        show (((rest.mapM (m := Step) (fun f => liftM (lowerField f)) >>= fun fs =>
          pure (field :: fs)).run).run s) = _
        rw [run_bind, hr]
        rfl

theorem session_lowerProgram_follows (p : Program) (s : Session) :
    StepFollows up s (Session.lowerProgram p) (Session.lowerProgram p) := by
  rw [Session.lowerProgram]
  obtain ⟨r, hr⟩ := lowerFields_run p.mainClass.fields
  refine .const_bind hr fun fields => (session_lowerMethods_follows _ s).bind fun irs t _ hirs => ?_
  intro t' hsymbols hcounters
  have hbelow : Below t.counters ({ classes := [{
      name := p.mainClass.name, superclass := p.mainClass.superclass
      imports := t.symbols.imports, fields, methods := irs }] } : Ir.Module) :=
    below_cons.mpr ⟨hirs, below_nil⟩
  refine ⟨?_, hcounters, rfl, hsymbols, Counters.le_refl _, fun a ha => ?_⟩
  · show Except.ok _ = Except.ok _
    rw [hsymbols]
    rfl
  · cases ha
    exact hbelow

theorem session_run_follows {α : Type} [HasNumbers α] {x : Lower α} (h : Steady x) (s : Session)
    (up : Counters) : Agrees up s (((Session.run x).run).run s)
      (((Session.run x).run).run { s with counters := s.counters + up }) := by
  rw [session_run_run, session_run_run]
  obtain ⟨hle, hbelow, hrun⟩ := h up s.counters
  refine ⟨?_, ?_, rfl, rfl, hle, hbelow⟩
  · exact congrArg Prod.fst hrun
  · exact congrArg Prod.snd hrun

end Steps

/-! ## Histories -/

/-- What a session can be asked for. -/
inductive Request where
  | program (p : Program)
  | method (m : Method)
  | stmt (s : Stmt)
  | expr (e : Expr) (expected : Option Ty)

/-- What a session gives. -/
inductive Answer where
  | module (m : Ir.Module)
  | method (m : Ir.Method)
  | fragment (code : List Instr)
  | lowered (l : Lowered)

instance : HasNumbers Answer where
  raise up
    | .module m => .module (raise up m)
    | .method m => .method (raise up m)
    | .fragment code => .fragment (raise up code)
    | .lowered l => .lowered (raise up l)
  Below k
    | .module m => Below k m
    | .method m => Below k m
    | .fragment code => Below k code
    | .lowered l => Below k l
  mono {k k' a} hle h := by
    cases a <;> exact HasNumbers.mono hle h

namespace Request

/-- The step of a session that answers a request. -/
def step : Request → Step Answer
  | program p => return .module (← Session.lowerProgram p)
  | method m => return .method (← Session.lowerMethod m)
  | stmt s => return .fragment (← Session.lowerStmt s)
  | expr e expected => return .lowered (← Session.lowerExpr e expected)

/-- What a session gives for a request, and the session behind it. -/
def answer (r : Request) (s : Session) : Except CompileError Answer × Session :=
  (r.step.run).run s

/-- Whether a request is for a whole method or a whole program. -/
def isWhole : Request → Bool
  | program _ | method _ => true
  | stmt _ | expr .. => false

end Request

/-- What a session gives for requests in turn, and the session behind all of them. -/
def answers (s : Session) : List Request → List (Except CompileError Answer) × Session
  | [] => ([], s)
  | r :: rest =>
    let (a, t) := r.answer s
    let (more, last) := answers t rest
    (a :: more, last)

/-- The code in an answer. -/
def Answer.code : Answer → List Instr
  | module m => m.classes.flatMap fun c => c.methods.flatMap (·.instructions)
  | method m => m.instructions
  | fragment code => code
  | lowered l => l.code

theorem Agrees.map {α β : Type} [HasNumbers α] [HasNumbers β] {up : Counters} {s : Session}
    {o o' : Except CompileError α × Session} (h : Agrees up s o o') (g : α → β)
    (hraise : ∀ a, raise up (g a) = g (raise up a)) (hbelow : ∀ k a, Below k a → Below k (g a)) :
    Agrees up s (o.1.map g, o.2) (o'.1.map g, o'.2) := by
  obtain ⟨hresult, hcounters, hsymbols, hsymbols', hle, hall⟩ := h
  refine ⟨?_, hcounters, hsymbols, hsymbols', hle, ?_⟩
  · rw [hresult]
    cases o.1 with
    | error e => rfl
    | ok a => exact congrArg Except.ok (hraise a).symm
  · intro b hb
    cases ho : o.1 with
    | error e =>
      rw [ho] at hb
      cases hb
    | ok a =>
      rw [ho] at hb
      cases hb
      exact hbelow _ a (hall a ho)

theorem run_return {α β : Type} (x : Step α) (g : α → β) (s : Session) :
    ((do return g (← x) : Step β).run).run s = (((x.run).run s).1.map g, ((x.run).run s).2) := by
  rw [run_bind]
  cases (x.run).run s with
  | mk r t => cases r <;> rfl

theorem answer_agrees (r : Request) (s : Session) (up : Counters) :
    Agrees up s (r.answer s) (r.answer { s with counters := s.counters + up }) := by
  cases r with
  | program p =>
    rw [Request.answer, Request.answer, Request.step, run_return, run_return]
    exact (session_lowerProgram_follows p s { s with counters := s.counters + up } rfl rfl).map Answer.module
      (fun _ => rfl) fun _ _ h => h
  | method m =>
    rw [Request.answer, Request.answer, Request.step, run_return, run_return]
    exact (session_lowerMethod_follows (s := s) m { s with counters := s.counters + up } rfl
      rfl).map Answer.method
      (fun _ => rfl) fun _ _ h => h
  | stmt stmt =>
    rw [Request.answer, Request.answer, Request.step, run_return, run_return]
    exact (session_run_follows (steady_lowerStmt _ stmt) s up).map Answer.fragment (fun _ => rfl)
      fun _ _ h => h
  | expr e expected =>
    rw [Request.answer, Request.answer, Request.step, run_return, run_return]
    exact (session_run_follows (steady_lowerExpr _ expected e) s up).map Answer.lowered (fun _ => rfl)
      fun _ _ h => h

/-- Nothing but the symbols and the counters of a session matters to a request for a whole method or a
whole program. -/
theorem answer_whole {r : Request} (hr : r.isWhole) {s s' : Session}
    (hsymbols : s'.symbols = s.symbols) {up : Counters} (hcounters : s'.counters = s.counters + up) :
    (r.answer s').1 = (r.answer s).1.map (raise up) := by
  cases r with
  | program p =>
    rw [Request.answer, Request.answer, Request.step, run_return, run_return]
    exact ((session_lowerProgram_follows p s s' hsymbols hcounters).map Answer.module (fun _ => rfl)
      fun _ _ h => h).result
  | method m =>
    rw [Request.answer, Request.answer, Request.step, run_return, run_return]
    exact ((session_lowerMethod_follows m s' hsymbols hcounters).map Answer.method (fun _ => rfl)
      fun _ _ h => h).result
  | stmt | expr => cases hr

/-- The temporaries that code assigns. -/
def tempsOf (code : List Instr) : List Nat :=
  code.filterMap (·.definedTemp?)

/-- The labels and temporaries of code have numbers that were given out between two states of the
counters. -/
structure Between (k k' : Counters) (code : List Instr) : Prop where
  labels : ∀ l ∈ labelsOf code, ∃ role n, l = .numbered role n ∧ k.labels ≤ n ∧ n < k'.labels
  temps : ∀ id ∈ tempsOf code, k.temps ≤ id ∧ id < k'.temps

theorem Between.mono {k k' m m' : Counters} {code : List Instr} (h : Between k k' code) (hm : m ≤ k)
    (hm' : k' ≤ m') : Between m m' code where
  labels l hl := by
    obtain ⟨role, n, rfl, hn, hn'⟩ := h.labels l hl
    exact ⟨role, n, rfl, Nat.le_trans hm.2 hn, Nat.lt_of_lt_of_le hn' hm'.2⟩
  temps id hid := ⟨Nat.le_trans hm.1 (h.temps id hid).1, Nat.lt_of_lt_of_le (h.temps id hid).2 hm'.1⟩

theorem Between.disjoint {k k' m m' : Counters} {code code' : List Instr} (h : Between k k' code)
    (h' : Between m m' code') (hle : k' ≤ m) : (∀ l ∈ labelsOf code, l ∉ labelsOf code') ∧
      ∀ id ∈ tempsOf code, id ∉ tempsOf code' := by
  constructor
  · intro l hl hl'
    obtain ⟨role, n, rfl, _, hn⟩ := h.labels l hl
    obtain ⟨role', n', heq, hn', _⟩ := h'.labels _ hl'
    cases heq
    exact absurd hn (Nat.not_lt.mpr (Nat.le_trans hle.2 hn'))
  · intro id hid hid'
    exact absurd (h.temps id hid).2 (Nat.not_lt.mpr (Nat.le_trans hle.1 (h'.temps id hid').1))

theorem labelsOf_raise (up : Counters) (code : List Instr) :
    labelsOf (raise up code) = (labelsOf code).map (raise up) := by
  rw [labelsOf, labelsOf, List.map_filterMap]
  refine (List.filterMap_map).trans (List.filterMap_congr fun i _ => definedLabel_raise i)

theorem tempsOf_raise (up : Counters) (code : List Instr) :
    tempsOf (raise up code) = (tempsOf code).map (· + up.temps) := by
  rw [tempsOf, tempsOf, List.map_filterMap]
  refine (List.filterMap_map).trans (List.filterMap_congr fun i _ => ?_)
  show (raise up i).definedTemp? = _
  rw [Ir.Instr.definedTemp?, definedVar_raise, Ir.Instr.definedTemp?, Option.map_map, Option.map_map]
  rfl

theorem raise_flatMap {α β : Type} [HasNumbers α] [HasNumbers β] {up : Counters} {f : α → List β}
    (hf : ∀ a, f (raise up a) = raise up (f a)) : ∀ l : List α,
      (raise up l).flatMap f = raise up (l.flatMap f)
  | [] => rfl
  | a :: rest => by
    rw [raise_cons, List.flatMap_cons, List.flatMap_cons, raise_append, hf, raise_flatMap hf rest]

theorem below_flatMap {α β : Type} [HasNumbers α] [HasNumbers β] {k : Counters} {f : α → List β}
    (hf : ∀ a, Below k a → Below k (f a)) {l : List α} (h : Below k l) : Below k (l.flatMap f) := by
  intro b hb
  obtain ⟨a, ha, hb⟩ := List.mem_flatMap.mp hb
  exact hf a (h a ha) b hb

theorem code_raise (up : Counters) (a : Answer) : (raise up a).code = raise up a.code := by
  cases a with
  | module m =>
    refine raise_flatMap (f := fun c : Ir.Class => c.methods.flatMap (·.instructions)) (fun c => ?_)
      m.classes
    exact raise_flatMap (f := fun ir : Ir.Method => ir.instructions) (fun _ => rfl) c.methods
  | method | fragment | lowered => rfl

theorem below_code {k : Counters} {a : Answer} (h : Below k a) : Below k a.code := by
  cases a with
  | module m =>
    refine below_flatMap (f := fun c : Ir.Class => c.methods.flatMap (·.instructions))
      (fun c hc => ?_) h
    exact below_flatMap (f := fun ir : Ir.Method => ir.instructions) (fun _ h => h) hc
  | method | fragment => exact h
  | lowered => exact h.1

theorem below_labelsOf {k : Counters} {code : List Instr} (h : Below k code) :
    ∀ l ∈ labelsOf code, Below k l := by
  intro l hl
  obtain ⟨i, hi, hl⟩ := List.mem_filterMap.mp hl
  have hbelow := h i hi
  cases i with
  | label l' =>
    cases hl
    exact hbelow
  | assign | putField | call | goto | condGoto | ret => cases hl

theorem below_tempsOf {k : Counters} {code : List Instr} (h : Below k code) :
    ∀ id ∈ tempsOf code, id < k.temps := by
  intro id hid
  obtain ⟨i, hi, hid⟩ := List.mem_filterMap.mp hid
  have hbelow := h i hi
  cases i with
  | assign dest value =>
    cases dest with
    | var o =>
      cases o with
      | temp id' ty =>
        cases hid
        exact hbelow.1
      | literal | var | receiver | classRef => cases hid
    | element => cases hid
  | label | putField | call | goto | condGoto | ret => cases hid

theorem answer_between (r : Request) (s : Session) :
    s.counters ≤ (r.answer s).2.counters ∧ (r.answer s).2.symbols = s.symbols ∧
      ∀ a, (r.answer s).1 = .ok a → Between s.counters (r.answer s).2.counters a.code := by
  have hkept := answer_agrees r s {}
  refine ⟨hkept.le, hkept.symbols, fun a ha => ?_⟩
  have hbelow := below_code (hkept.below a ha)
  -- seen from counters at zero, the answer is one that is raised by the counters of the session
  have hraised := (answer_agrees r { s with counters := {} } s.counters).result
  have hzero : ({ s with counters := {} + s.counters } : Session) = s := by
    have hcounters : ({} + s.counters : Counters) = s.counters := by
      show Counters.mk _ _ = s.counters
      rw [Nat.zero_add, Nat.zero_add]
    rw [hcounters]
  rw [show ({ ({ s with counters := {} } : Session) with
    counters := ({ s with counters := {} } : Session).counters + s.counters } : Session) = s from hzero,
    ha] at hraised
  obtain ⟨b, hb⟩ : ∃ b, a = raise s.counters b := by
    cases ho : (r.answer { s with counters := {} }).1 with
    | error e =>
      rw [ho] at hraised
      cases hraised
    | ok b =>
      rw [ho] at hraised
      exact ⟨b, Except.ok.inj hraised⟩
  constructor
  · intro l hl
    have hlow := below_labelsOf hbelow l hl
    rw [hb, code_raise, labelsOf_raise] at hl
    obtain ⟨l', _, rfl⟩ := List.mem_map.mp hl
    cases l' with
    | named name => exact absurd hlow id
    | numbered role n => exact ⟨role, n + s.counters.labels, rfl, Nat.le_add_left _ _, hlow⟩
  · intro id hid
    have hlow := below_tempsOf hbelow id hid
    rw [hb, code_raise, tempsOf_raise] at hid
    obtain ⟨id', _, rfl⟩ := List.mem_map.mp hid
    exact ⟨Nat.le_add_left _ _, hlow⟩

/-- The counters of a session grow along a history, and the numbers in all answers are from between
their first and their last state. -/
theorem answers_between : ∀ (requests : List Request) (s : Session),
    s.counters ≤ (answers s requests).2.counters ∧ (answers s requests).2.symbols = s.symbols ∧
      ∀ a, .ok a ∈ (answers s requests).1 →
        Between s.counters (answers s requests).2.counters a.code
  | [], s => ⟨Counters.le_refl _, rfl, nofun⟩
  | r :: rest, s => by
    obtain ⟨hle, hsymbols, hfirst⟩ := answer_between r s
    obtain ⟨hle', hsymbols', hrest⟩ := answers_between rest (r.answer s).2
    refine ⟨Counters.le_trans hle hle', hsymbols'.trans hsymbols, fun a ha => ?_⟩
    rcases List.mem_cons.mp ha with ha | ha
    · exact (hfirst a ha.symm).mono (Counters.le_refl _) hle'
    · exact (hrest a ha).mono hle (Counters.le_refl _)

theorem answers_pairwise : ∀ (requests : List Request) (s : Session),
    (answers s requests).1.Pairwise fun x y => ∀ a b, x = .ok a → y = .ok b →
      (∀ l ∈ labelsOf a.code, l ∉ labelsOf b.code) ∧ ∀ id ∈ tempsOf a.code, id ∉ tempsOf b.code
  | [], s => .nil
  | r :: rest, s => by
    refine .cons (fun y hy a b ha hb => ?_) (answers_pairwise rest (r.answer s).2)
    subst hb
    exact ((answer_between r s).2.2 a ha).disjoint
      ((answers_between rest (r.answer s).2).2.2 b hy) (Counters.le_refl _)

/-- A method or a program that is lowered after any other steps becomes what it becomes in a fresh
session over the same symbols, with the numbers raised that were given out so far, or fails with the
same error. No label and no temporary is defined in the results of two steps. -/
theorem lowering_ignores_history (symbols : SymbolTable) (requests : List Request) :
    (∀ r : Request, r.isWhole → (r.answer (answers { symbols } requests).2).1 =
      (r.answer { symbols }).1.map (raise (answers { symbols } requests).2.counters)) ∧
    (answers { symbols } requests).1.Pairwise fun x y => ∀ a b, x = .ok a → y = .ok b →
      (∀ l ∈ labelsOf a.code, l ∉ labelsOf b.code) ∧ ∀ id ∈ tempsOf a.code, id ∉ tempsOf b.code := by
  constructor
  · intro r hr
    refine answer_whole hr (answers_between requests { symbols }).2.1 ?_
    show _ = Counters.mk _ _
    rw [Nat.zero_add, Nat.zero_add]
  · exact answers_pairwise requests { symbols }

/-- A method that is lowered after an expression outside of all methods, which took a temporary, and
after a method that failed behind its first label. -/
theorem lowering_ignores_history_failed :
    let failing : Method := {
      name := "g", returnTy := .int
      body := [.loop (.not (.literal (.bool true))) (.expr (.var "x"))] }
    let m : Method := {
      name := "f", returnTy := .int, params := [{ name := "p", ty := .int }]
      body := [.ret (some (.binary .add (.var "p") (.literal (.int 1))))] }
    let symbols : SymbolTable :=
      { className := "A", superclass := none, imports := [], fields := []
        methods := [.ofMethod failing, .ofMethod m] }
    let requests : List Request :=
      [.expr (.binary .add (.literal (.int 1)) (.literal (.int 2))) none, .method failing]
    (answers { symbols } requests).2.counters = ⟨1, 1⟩ ∧
      ((Request.method m).answer (answers { symbols } requests).2).1 =
        ((Request.method m).answer { symbols }).1.map (raise ⟨1, 1⟩) := by
  intro failing m symbols requests
  have hcounters : (answers { symbols } requests).2.counters = ⟨1, 1⟩ := by decide
  refine ⟨hcounters, ?_⟩
  rw [← hcounters]
  exact (lowering_ignores_history symbols requests).1 (.method m) rfl

end MiniJava
