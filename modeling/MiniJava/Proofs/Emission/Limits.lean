import MiniJava.Proofs.Compilation
import MiniJava.Proofs.Emission.Arity
import MiniJava.Proofs.Emission.Meaning
import MiniJava.Proofs.Emission.Replay
import MiniJava.Proofs.Lowering.Allocations
import MiniJava.Proofs.Optimizer.Rules

/-!
# The limits of the stack

The code of a compiled program never takes a word off an empty stack, and the limit that a method asks
for is enough for it. The exact limit is the greatest depth of a replay, which also goes over the code
that no path leads to.
-/

namespace MiniJava

namespace Jvm

open Ir (Operand)
open Lowering (Constructs)

/-! ## Code with a stack -/

/-- A replay never takes a word off an empty stack, and each place has one depth. -/
structure WellStacked (code : List Instr) : Prop where
  pops : ∀ n d i, Replay code n d → code[n]? = some i → i.pops ≤ d
  depth : ∀ n d d', Replay code n d → Replay code n d' → d = d'

theorem Scanned.wellStacked {e : Nat} {code : List Instr} (h : Scanned 0 code e) :
    WellStacked code where
  pops n d i hpath hi := by
    rw [h.replay hpath]
    exact (h.text.fits_at hi).pops
  depth n d d' hpath hpath' := (h.replay hpath).trans (h.replay hpath').symm

theorem constructorCode_wellStacked (superclass : String) :
    WellStacked (constructorCode superclass) :=
  Balanced.scanned (e := 0) (.straight rfl (Nat.zero_le 0) (.straight rfl (Nat.le_refl 1)
    (.ret (Nat.zero_le 0) .nil))) |>.wellStacked

/-- The greatest depth of a replay is the one that is found by going over the text. -/
theorem Scanned.greatest {e : Nat} {code : List Instr} (h : Scanned 0 code e) :
    IsGreatest {d | ∃ n, Replay code n d} (greatestDepth 0 code) := by
  constructor
  · obtain ⟨n, hn, hdepth⟩ := exists_depthAt_greatest 0 code
    exact ⟨n, hdepth ▸ replay_depthAt code n hn⟩
  · rintro d ⟨n, hpath⟩
    rw [h.replay hpath]
    exact depthAt_le_greatest 0 code n

/-- Where paths lead to every instruction, nothing is deeper than a path is somewhere. -/
theorem Scanned.greatest_reached {code : List Instr} (h : Scanned 0 code 0)
    (hreach : ∀ n < code.length, ∃ d, Reaches code n d) :
    IsGreatest {d | ∃ n, Reaches code n d} (greatestDepth 0 code) := by
  constructor
  · obtain ⟨n, hn, hdepth⟩ := exists_depthAt_greatest 0 code
    rcases Nat.lt_or_eq_of_le hn with hlt | rfl
    · obtain ⟨d, hpath⟩ := hreach n hlt
      refine ⟨n, ?_⟩
      rwa [← hdepth, ← h.replay hpath.replay]
    · rw [← hdepth, h.last]
      exact ⟨0, .start ⟨rfl, rfl⟩⟩
  · rintro d ⟨n, hpath⟩
    exact h.greatest.2 ⟨n, hpath.replay⟩

/-! ## Instructions in turn -/

section Instructions

variable {f : Frame} {s s' : Emitted}

theorem InstrCode.waits {n n' : Nat} {pending pending' : Option Operand} {i : Ir.Instr}
    {code : List Instr} (h : InstrCode f n pending i code pending' n') : pending' = i.allocates? := by
  cases h with
  | newObject hnew => rw [Ir.Instr.allocates?, if_pos hnew]
  | @assignVar dest value _ _ _ hnew =>
    cases value with
    | call call => rw [Ir.Instr.allocates?, if_neg (hnew call rfl)]
    | _ => rfl
  | _ => rfl

/-- The object that waits behind some instructions. -/
def waitingBehind (done : List Ir.Instr) (pending : Option Operand) : Option Operand :=
  (done.getLast?.map Ir.Instr.allocates?).getD pending

theorem emitEach_code : ∀ {done : List Ir.Instr} {s s' : Emitted}, (∀ i ∈ done, Sound f i) →
    Counted s → Gives (done.forM (emitInstr f)) s () s' →
      ∃ code, Extends True s code s' ∧ Balanced (waitingWords s.pending) code (waitingWords s'.pending) ∧
        s'.pending = waitingBehind done s.pending ∧ Counted s'
  | [], s, s', _, hs, h => by
    obtain ⟨_, rfl⟩ := Gives.pure_iff.mp h
    exact ⟨[], .refl s, .nil, rfl, hs⟩
  | i :: rest, s, s', hsound, hs, h => by
    rw [List.forall_mem_cons] at hsound
    obtain ⟨_, t, hi, h⟩ := Gives.bind (x := emitInstr f i) h
    obtain ⟨code, hcode, hextends, ht⟩ := emitInstr_code (fun _ => hsound.1) (fun _ => hs) hi
    obtain ⟨more, hmore, hbalanced, hpending, hs'⟩ := emitEach_code hsound.2 (ht trivial) h
    refine ⟨_, hextends.trans hmore,
      ((settleCode_balanced s.pending i).append (hcode.balanced hsound.1)).append hbalanced, ?_, hs'⟩
    rw [hpending, hcode.waits, waitingBehind, waitingBehind]
    cases rest with
    | nil => rfl
    | cons j rest =>
      rw [List.getLast?_cons_cons, List.getLast?_eq_some_getLast (List.cons_ne_nil j rest)]
      rfl

theorem emitInstrs_append {u : Unit} : ∀ {done rest : List Ir.Instr} {s s' : Emitted},
    Gives (emitInstrs f (done ++ rest)) s u s' →
      ∃ t, Gives (done.forM (emitInstr f)) s () t ∧ Gives (emitInstrs f rest) t u s'
  | [], rest, s, s', h => ⟨s, Gives.pure_iff.mpr ⟨rfl, rfl⟩, h⟩
  | i :: done, rest, s, s', h => by
    rw [List.cons_append, emitInstrs] at h
    obtain ⟨v, t, hi, h⟩ := h.bind
    obtain ⟨t', hdone, hrest⟩ := emitInstrs_append h
    exact ⟨t', Gives.bind_iff.mpr ⟨v, t, hi, hdone⟩, hrest⟩

/-- What the instructions of a method become leaves the stack empty. -/
theorem emitInstrs_code {u : Unit} {instrs : List Ir.Instr} (hsound : ∀ i ∈ instrs, Sound f i)
    (hs : Counted s) (h : Gives (emitInstrs f instrs) s u s') :
    ∃ code, Extends True s code s' ∧ Balanced (waitingWords s.pending) code 0 := by
  rw [← List.append_nil instrs] at h
  obtain ⟨t, heach, hend⟩ := emitInstrs_append h
  obtain ⟨code, hextends, hbalanced, _, _⟩ := emitEach_code hsound hs heach
  obtain ⟨hdrop, _, _⟩ := dropPending_extends hend
  refine ⟨_, hextends.trans hdrop, hbalanced.append ?_⟩
  cases t.pending with
  | none => exact .nil
  | some o => exact .single rfl (Nat.le_refl 1) rfl

end Instructions

/-! ## Methods -/

/-- Whether the last of some instructions allocates an object that the next one constructs. -/
def awaitsConstructor (done : List Ir.Instr) (next : Ir.Instr) : Bool :=
  (done.getLast?.bind Ir.Instr.allocates?).any (isConstructorOf · next)

/-- The stack of an emitted method is in order. The limit that it asks for bounds every replay, the
exact one is reached, and by a path if paths lead to every instruction. In front of the code of an
instruction the stack is empty, but for an object that the instruction constructs. -/
structure StackInOrder (options : Options) (owner : Ir.Class) (m : Ir.Method) (block : MethodBlock) :
    Prop where
  stacked : WellStacked block.code
  bounded : ∀ n d, Replay block.code n d → d ≤ block.stackLimit
  exact : options.stackPolicy = .exact → IsGreatest {d | ∃ n, Replay block.code n d} block.stackLimit
  reached : options.stackPolicy = .exact → (∀ n < block.code.length, ∃ d, Reaches block.code n d) →
    IsGreatest {d | ∃ n, Reaches block.code n d} block.stackLimit
  between : ∃ n s, MethodEmitted options owner m n block s ∧
    ∀ done next rest, m.instructions = done ++ next :: rest →
      ∃ t, Gives (done.forM (emitInstr (frameOf options owner m))) { nextLabel := n } () t ∧
        t.code.toList <+: block.code ∧
        ∀ d, Replay block.code t.code.size d → d = if awaitsConstructor done next then 1 else 0

variable {options : Options} {owner : Ir.Class} {m : Ir.Method} {block : MethodBlock} {n : Nat}
  {s : Emitted}

theorem waitingWords_behind {instrs done rest : List Ir.Instr} {next : Ir.Instr}
    (h : Constructs instrs) (hinstrs : instrs = done ++ next :: rest) :
    waitingWords (waitingBehind done none) = if awaitsConstructor done next then 1 else 0 := by
  have hbehind : waitingBehind done none = done.getLast?.bind Ir.Instr.allocates? := by
    rw [waitingBehind]
    cases done.getLast? <;> rfl
  rw [hbehind, awaitsConstructor]
  cases hlast : done.getLast?.bind Ir.Instr.allocates? with
  | none => rfl
  | some dest =>
    obtain ⟨next', hnext, hconstructor⟩ := h.next hinstrs hlast
    cases hnext
    rw [Option.any_some, hconstructor]
    rfl

theorem MethodEmitted.stackInOrder (h : MethodEmitted options owner m n block s)
    (hsound : ∀ i ∈ m.instructions, Sound (frameOf options owner m) i)
    (hconstructs : Constructs m.instructions) : StackInOrder options owner m block := by
  have hcounted : Counted { nextLabel := n } := rfl
  obtain ⟨code, hextends, hbalanced⟩ := emitInstrs_code hsound hcounted h.instrs
  have hcode : block.code = code := h.code.trans (hextends.appended.trans (List.nil_append code))
  rw [← hcode] at hextends hbalanced
  have hscanned : Scanned 0 block.code 0 := hbalanced.scanned
  have hpeak : s.stack.peak = greatestDepth 0 block.code := by
    have hlevel := congrArg Prod.snd (hextends.tracked trivial)
    exact hlevel.trans ((hbalanced.peak 0 (Nat.le_refl 0)).trans (Nat.zero_max _))
  have hexact : options.stackPolicy = .exact → block.stackLimit = greatestDepth 0 block.code := by
    intro hpolicy
    rw [h.stackLimit, hpolicy]
    exact hpeak
  refine {
    stacked := hscanned.wellStacked
    bounded := fun n d hpath => ?_
    exact := fun hpolicy => hexact hpolicy ▸ hscanned.greatest
    reached := fun hpolicy hreach => hexact hpolicy ▸ hscanned.greatest_reached hreach
    between := ⟨n, s, h, fun done next rest hinstrs => ?_⟩ }
  · have hle : d ≤ s.stack.peak := hpeak ▸ hscanned.greatest.2 ⟨n, hpath⟩
    rw [h.stackLimit]
    cases options.stackPolicy with
    | exact => exact hle
    | conservative => exact Nat.le_trans hle (Nat.le_max_right _ _)
  · have hall := h.instrs
    rw [hinstrs] at hall hsound
    obtain ⟨t, heach, hrest⟩ := emitInstrs_append hall
    rw [List.forall_mem_append] at hsound
    obtain ⟨first, hfirst, hbalanced', hpending, ht⟩ := emitEach_code hsound.1 hcounted heach
    obtain ⟨more, hmore, _⟩ := emitInstrs_code hsound.2 ht hrest
    have htext : t.code.toList = first := hfirst.appended.trans (List.nil_append first)
    have hwhole : block.code = first ++ more := by
      rw [h.code, hmore.appended, htext]
    refine ⟨t, heach, ⟨more, by rw [htext, hwhole]⟩, fun d hpath => ?_⟩
    have hsize : t.code.size = first.length := by
      rw [← htext, Array.length_toList]
    have hlast : depthAt 0 first first.length = waitingWords t.pending := hbalanced'.scanned.last
    rw [hscanned.replay hpath, hsize, hwhole, depthAt_append, hlast, hpending]
    exact waitingWords_behind hconstructs hinstrs

end Jvm

namespace Semantics

open Constants (AnyLiteral Simplifies)
open Jvm (StackInOrder WellStacked Replay Reaches frameOf constructorCode MethodBlock)
open Lowering

/-! ## Programs -/

/-- Each call of a program to a method of the class passes as many arguments as the method accepts. -/
def CallsPass (symbols : SymbolTable) (p : Program) : Prop :=
  ∀ d ∈ p.mainClass.methods,
    Stmt.AllKeep (anyContext symbols d) (PassesDeclared (anyContext symbols d)) (fun _ => True) d.body

variable {options : Options} {symbols : SymbolTable} {p p' : Program} {c : Ir.Class}
  {file : Jvm.ClassFile}

theorem named_steady (c : Context) : Steady AnyLiteral (Named c) where
  literal _ _ := trivial
  step h hs _ := by
    cases hs with
    | literal | paren | binary | not | arrayLiteral | index | length | self => trivial
    | var | newArray | newObject => exact h
    | call ht hargs =>
      refine ⟨h.1, fun name hname => h.2 name ?_⟩
      cases ht with
      | var => exact hname
      | _ => cases hname

theorem NamesKnown.compiledAs (h : NamesKnown symbols p) (hp : CompiledAs options p p') :
    NamesKnown symbols p' where
  table := h.table
  bodies := hp.forall_bodies symbols
    (P := fun c body => Stmt.AllKeep c (Named c) (fun _ => True) body)
    (named_steady _).optimizeMethod_keeps h.bodies

theorem compilation_stackInOrder (h : Compilation options p p' symbols c file)
    (hnames : NamesKnown symbols p) (hcalls : CallsPass symbols p') :
    List.Forall₂ (StackInOrder options c) c.methods file.methods := by
  have hnames' := hnames.compiledAs h.source
  have hdeclares := lowered_declares h.symbolsOf h.lowered
  obtain ⟨hlength, hblocks⟩ := List.forall₂_iff_zip.mp h.emitted.methods
  refine List.forall₂_iff_zip.mpr ⟨hlength, fun {m block} hmem => ?_⟩
  obtain ⟨n, s, hblock⟩ := hblocks hmem
  obtain ⟨d, hd, k, k', hir⟩ := h.lowered.origin (List.of_mem_zip hmem).1
  have hbody := (lowerMethod_gives hir).body
  have hpasses := lowerBody_passesAll (c := anyContext symbols d) (f := frameOf options c m) rfl
    hdeclares hnames'.table (passesDeclared_passes hdeclares) (hcalls d hd) hbody
  exact hblock.stackInOrder (lowerBody_sound (c := anyContext symbols d) (f := frameOf options c m) rfl
    hdeclares hnames'.table (signature_known h.symbolsOf hnames'.table hd) (fun _ _ h => h)
    (hnames'.bodies d hd) hbody hpasses) (lowerBody_constructed symbols d hbody)

/-- In the code of a compiled program the stack is in order, if the calls pass what they have to, in the
program and in what the optimizer makes of it: no replay takes a word off an empty stack, each place has
one depth, and the limit bounds it. -/
theorem compile_bounds_stack {diagnostics : List Diagnostic} {checked : Checked}
    {units : List AssemblyUnit} (hchecked : Checked.ofProgram p diagnostics = .ok checked)
    (hnames : NamesKnown checked.symbols p)
    (hcalls : ∀ p', CompiledAs options p p' → CallsPass checked.symbols p')
    (h : Compiler.compile options checked = .ok units) :
    ∃ c file, Compiler.lower options checked = .ok { classes := [c] } ∧
      units = Compiler.units [file] ∧ WellStacked (constructorCode file.superclass) ∧
      List.Forall₂ (StackInOrder options c) c.methods file.methods := by
  obtain ⟨p', c, file, hcompilation, hlower, hunits⟩ := compile_gives hchecked h
  exact ⟨c, file, hlower, hunits, Jvm.constructorCode_wellStacked _,
    compilation_stackInOrder hcompilation hnames (hcalls p' hcompilation.source)⟩

/-- A method that calls another one of the class. -/
theorem compile_bounds_stack_call :
    let g : Method := {
      name := "g", returnTy := .int, params := [{ name := "b", ty := .boolean }]
      body := [.ret (some (.literal (.int 1)))] }
    let f : Method := {
      name := "f", returnTy := .int
      body := [.ret (some (.call .self "g" [.literal (.bool true)]))] }
    let p : Program := { mainClass := { name := "A", methods := [g, f] } }
    let symbols : SymbolTable :=
      { className := "A", superclass := none, imports := [], fields := []
        methods := [.ofMethod g, .ofMethod f] }
    let checked : Checked := { program := p, symbols }
    let options : Options := { optimize := true, stackPolicy := .exact }
    let call : Ir.Call := {
      kind := .invokeVirtual, target := .receiver "A", method := some "g", args := [.bool true]
      returnTy := .int }
    let irG : Ir.Method := {
      name := "g", isStatic := false, returnTy := .int, params := [{ name := "b", ty := .boolean }]
      vars := .ofList [(.receiver, .object "A"), (.named "b", .boolean)]
      instructions := [.ret (some (.int 1))] }
    let irF : Ir.Method := {
      name := "f", isStatic := false, returnTy := .int
      vars := .ofList [(.receiver, .object "A"), (.temp 0, .int)]
      instructions := [.assignVar (.temp 0 .int) (.call call), .ret (some (.temp 0 .int))] }
    let c : Ir.Class := { name := "A", methods := [irG, irF] }
    Checked.ofProgram p [] = .ok checked ∧ NamesKnown symbols p ∧
      (∀ p', CompiledAs options p p' → CallsPass symbols p') ∧
      Compiler.lower options checked = .ok { classes := [c] } ∧
      ∃ file block, Compiler.compile options checked = .ok (Compiler.units [file]) ∧
        file.methods[1]? = some block ∧ WellStacked block.code ∧
        IsGreatest {d | ∃ n, Replay block.code n d} block.stackLimit := by
  intro g f p symbols checked options call irG irF c
  have hchecked : Checked.ofProgram p [] = .ok checked := rfl
  have hlower : Compiler.lower options checked = .ok { classes := [c] } := rfl
  have hknown : KnownTable symbols := by
    refine ⟨by decide, nofun, ?_⟩
    rw [List.forall_mem_cons, List.forall_mem_singleton]
    exact ⟨⟨by decide, trivial, List.forall_mem_singleton.mpr trivial, nofun⟩,
      ⟨by decide, trivial, nofun, nofun⟩⟩
  have hsignature : (anyContext symbols f).signature? .self
      (typeOf (anyContext symbols f) none .self) "g" = some (.ofMethod g) := rfl
  have hparameters : Parameters.ofSignature? (some (.ofMethod g)) = { fixed := [.boolean] } := rfl
  have hnames : NamesKnown symbols p := by
    refine ⟨hknown, List.forall_mem_cons.mpr ⟨?_, List.forall_mem_singleton.mpr ?_⟩⟩
    · simp only [g, Stmt.AllKeep, Stmt.Keeps, Expr.Keeps, Named, and_self]
    · simp only [f, Stmt.AllKeep, Stmt.Keeps, Expr.Keeps, hsignature, hparameters, Expr.ArgsKeep,
        Parameters.packing?, Named, and_true, true_and, implies_true]
      exact ⟨by decide, by rintro name ⟨⟩⟩
  have hpass : CallsPass symbols p := by
    refine List.forall_mem_cons.mpr ⟨?_, List.forall_mem_singleton.mpr ?_⟩
    · simp only [g, Stmt.AllKeep, Stmt.Keeps, Expr.Keeps, PassesDeclared, and_self]
    · simp only [f, Stmt.AllKeep, Stmt.Keeps, Expr.Keeps, hsignature, hparameters, Expr.ArgsKeep,
        Parameters.packing?, PassesDeclared, and_true, true_and, implies_true]
      rintro s ⟨⟩
      exact rfl
  have hcalls : ∀ p', CompiledAs options p p' → CallsPass symbols p' := by
    intro p' hsource
    cases hsource with
    | plain => exact hpass
    | optimized _ h =>
      -- there is nothing to fold
      have hsame : Constants.optimizeProgram p options.maxPasses.toNat = .ok p := rfl
      cases hsame.symm.trans h
      exact hpass
  obtain ⟨files, n, hemit⟩ : ∃ files n, Gives (Jvm.assemble options { classes := [c] }) 0 files n :=
    Gives.of_isOk (by decide)
  have hcompile := compile_of_gives hlower hemit
  obtain ⟨c', file, hclass, hunits, _, hmethods⟩ :=
    compile_bounds_stack hchecked hnames hcalls hcompile
  rw [hunits] at hcompile
  cases hlower.symm.trans hclass
  obtain ⟨first, rest, _, hrest, hfile⟩ := List.forall₂_cons_left_iff.mp hmethods
  obtain ⟨block, rest', hblock, _, rfl⟩ := List.forall₂_cons_left_iff.mp hrest
  exact ⟨hchecked, hnames, hcalls, hlower, file, block, hcompile, congrArg (·[1]?) hfile,
    hblock.stacked, hblock.exact rfl⟩

/-- The exact limit also covers code that no path leads to: behind the first return of `g` the stack is
two words deep, and one everywhere else. And a target may be an object of the class only once the
optimizer has put a literal into it: then `f` calls `g` without the argument that `g` takes. -/
theorem compile_bounds_stack_exceptions :
    let g : Method := {
      name := "g", returnTy := .int, params := [{ name := "x", ty := .int }]
      body := [.ret (some (.var "x")), .ret (some (.binary .add (.var "x") (.var "x")))] }
    let f : Method := {
      name := "f", returnTy := .int, locals := [{ name := "b", ty := .boolean }]
      body := [.assign "b" (.literal (.bool true)),
        .ret (some (.call (.paren (.binary .and (.var "b") .self)) "g" []))] }
    let checkedOf : List Method → Checked := fun methods => {
      program := { mainClass := { name := "A", methods } }
      symbols := {
        className := "A", superclass := none, imports := [], fields := []
        methods := methods.map .ofMethod } }
    let options : Options := { optimize := true, stackPolicy := .exact }
    let blockG : MethodBlock := {
      modifiers := "public ", name := "g", descriptor := ⟨[.int], .int⟩, stackLimit := 2
      localsLimit := 3
      code := [.load .word 1, .ret (some .word), .load .word 1, .load .word 1, .op .add,
        .store .word 2, .load .word 2, .ret (some .word)] }
    let blockF : MethodBlock := {
      modifiers := "public ", name := "f", descriptor := ⟨[], .int⟩, stackLimit := 1
      localsLimit := 3
      code := [.load .reference 0, .invoke .virtual "A" "g" ⟨[.int], .int⟩, .store .word 2,
        .load .word 2, .ret (some .word)] }
    let fileOf : List MethodBlock → Jvm.ClassFile := fun methods =>
      { name := "A", superclass := "java/lang/Object", fields := [], methods }
    (Checked.ofProgram (checkedOf [g]).program [] = .ok (checkedOf [g]) ∧
      NamesKnown (checkedOf [g]).symbols (checkedOf [g]).program ∧
      (∀ p', CompiledAs options (checkedOf [g]).program p' →
        CallsPass (checkedOf [g]).symbols p') ∧
      Compiler.compile options (checkedOf [g]) = .ok (Compiler.units [fileOf [blockG]]) ∧
      ∀ n d, Reaches blockG.code n d → d < blockG.stackLimit) ∧
    (Checked.ofProgram (checkedOf [g, f]).program [] = .ok (checkedOf [g, f]) ∧
      NamesKnown (checkedOf [g, f]).symbols (checkedOf [g, f]).program ∧
      CallsPass (checkedOf [g, f]).symbols (checkedOf [g, f]).program ∧
      Compiler.compile options (checkedOf [g, f]) =
        .ok (Compiler.units [fileOf [blockG, blockF]]) ∧
      ∃ n d i, Reaches blockF.code n d ∧ blockF.code[n]? = some i ∧ d < i.pops) := by
  intro g f checkedOf options blockG blockF fileOf
  let irG : Ir.Method := {
    name := "g", isStatic := false, returnTy := .int, params := [{ name := "x", ty := .int }]
    vars := .ofList [(.receiver, .object "A"), (.named "x", .int), (.temp 0, .int)]
    instructions := [.ret (some (.var "x" .int)),
      .assignVar (.temp 0 .int) (.binary .add (.var "x" .int) (.var "x" .int)),
      .ret (some (.temp 0 .int))] }
  let irF : Ir.Method := {
    name := "f", isStatic := false, returnTy := .int, locals := [{ name := "b", ty := .boolean }]
    vars := .ofList [(.receiver, .object "A"), (.named "b", .boolean), (.temp 1, .int)]
    instructions := [
      .assignVar (.temp 1 .int) (.call {
        kind := .invokeVirtual, target := .receiver "A", method := some "g", args := []
        returnTy := .int }),
      .ret (some (.temp 1 .int))] }
  have hlowerG : Compiler.lower options (checkedOf [g]) =
    .ok { classes := [{ name := "A", methods := [irG] }] } := rfl
  have hlowerF : Compiler.lower options (checkedOf [g, f]) =
    .ok { classes := [{ name := "A", methods := [irG, irF] }] } := rfl
  have hfileG : Gives (Jvm.assemble options { classes := [{ name := "A", methods := [irG] }] }) 0
    [fileOf [blockG]] 0 := rfl
  have hfileF : Gives (Jvm.assemble options { classes := [{ name := "A", methods := [irG, irF] }] }) 0
    [fileOf [blockG, blockF]] 0 := rfl
  have hplain : PlainName "A" ∧ PlainName "g" ∧ PlainName "x" ∧ PlainName "b" := by decide
  have hknownG : ∀ methods, KnownSignature (checkedOf methods).symbols (.ofMethod g) := fun _ =>
    ⟨hplain.2.1, trivial, List.forall_mem_singleton.mpr trivial, List.forall_mem_nil _⟩
  have hknownF : KnownSignature (checkedOf [g, f]).symbols (.ofMethod f) :=
    ⟨by decide, trivial, List.forall_mem_nil _, List.forall_mem_singleton.mpr trivial⟩
  have hbodyG : ∀ c, Stmt.AllKeep c (Named c) (fun _ => True) g.body ∧
      Stmt.AllKeep c (PassesDeclared c) (fun _ => True) g.body := fun c => by
    simp only [g, Stmt.AllKeep, Stmt.Keeps, Expr.Keeps, Named, PassesDeclared, hplain.2.2.1, and_self]
  -- before the optimizer runs the target is a condition
  have hcondition : (anyContext (checkedOf [g, f]).symbols f).signature?
      (.paren (.binary .and (.var "b") .self)) (typeOf (anyContext (checkedOf [g, f]).symbols f) none
        (.paren (.binary .and (.var "b") .self))) "g" = none := rfl
  have hbodyF : Stmt.AllKeep (anyContext (checkedOf [g, f]).symbols f)
        (Named (anyContext (checkedOf [g, f]).symbols f)) (fun _ => True) f.body ∧
      Stmt.AllKeep (anyContext (checkedOf [g, f]).symbols f)
        (PassesDeclared (anyContext (checkedOf [g, f]).symbols f)) (fun _ => True) f.body := by
    simp only [f, Stmt.AllKeep, Stmt.Keeps, Expr.Keeps, Expr.ArgsKeep, Named, PassesDeclared,
      hcondition, hplain.2.1, hplain.2.2.2, and_true, true_and, implies_true]
    exact ⟨by rintro name ⟨⟩, by rintro s ⟨⟩⟩
  have hcallsG : ∀ p', CompiledAs options (checkedOf [g]).program p' →
      CallsPass (checkedOf [g]).symbols p' := by
    intro p' hsource
    have hsame : Constants.optimizeProgram (checkedOf [g]).program options.maxPasses.toNat =
      .ok (checkedOf [g]).program := rfl
    cases hsource with
    | plain => exact List.forall_mem_singleton.mpr (hbodyG _).2
    | optimized _ h =>
      cases hsame.symm.trans h
      exact List.forall_mem_singleton.mpr (hbodyG _).2
  have hreaches : ∀ n d, Reaches blockG.code n d → n = 0 ∧ d = 0 ∨ n = 1 ∧ d = 1 := by
    intro n d hpath
    induction hpath with
    | start h => exact .inl h
    | @next n n' i d _ hi hleads ih =>
      rcases ih with ⟨rfl, rfl⟩ | ⟨rfl, rfl⟩
      · cases hi
        cases hleads with
        | falls _ _ => exact .inr ⟨rfl, rfl⟩
        | jumps hi hj =>
          cases hi
          cases hj
      · cases hi
        cases hleads with
        | falls hi hfalls =>
          cases hi
          cases hfalls
        | jumps hi hj =>
          cases hi
          cases hj
  have hempty : Reaches blockF.code 1 1 :=
    Path.next (i := Jvm.Instr.load .reference 0) (.start ⟨rfl, rfl⟩) rfl (.falls rfl rfl)
  constructor
  · refine ⟨rfl, ⟨⟨hplain.1, List.forall_mem_nil _, List.forall_mem_singleton.mpr (hknownG _)⟩,
      List.forall_mem_singleton.mpr (hbodyG _).1⟩, hcallsG, compile_of_gives hlowerG hfileG,
      fun n d hpath => ?_⟩
    show d < 2
    have hplace := hreaches n d hpath
    omega
  · exact ⟨rfl, ⟨⟨hplain.1, List.forall_mem_nil _,
        List.forall_mem_cons.mpr ⟨hknownG _, List.forall_mem_singleton.mpr hknownF⟩⟩,
        List.forall_mem_cons.mpr ⟨(hbodyG _).1, List.forall_mem_singleton.mpr hbodyF.1⟩⟩,
      List.forall_mem_cons.mpr ⟨(hbodyG _).2, List.forall_mem_singleton.mpr hbodyF.2⟩,
      compile_of_gives hlowerF hfileF, 1, 1, _, hempty, rfl, by decide⟩

end Semantics

end MiniJava
