import MiniJava.Proofs.Compilation
import MiniJava.Proofs.Semantics.StackMachine

/-!
# What fields hold in a new object

A field with an initializer has its value in two places it could take effect from: in the line of the
field, and in the constructor. All of them are in the lines. Such a line gives its value to a static
field; an object begins with zeros, and the constructor only calls that of the superclass. So static
fields hold what they are declared with, and in a new object the other fields hold zero.
-/

namespace MiniJava

/-! ## Lines of fields -/

namespace Jvm

/-- The word `static` is among the modifiers of a field. -/
def FieldDirective.IsStatic (d : FieldDirective) : Prop :=
  "static".toList ∈ d.modifiers.toList.splitOn ' '

instance (d : FieldDirective) : Decidable d.IsStatic :=
  inferInstanceAs (Decidable (_ ∈ _))

theorem assembleField_isStatic (r : Resolver) (f : Ir.Field) :
    (assembleField r f).IsStatic ↔ f.isStatic := by
  have hwords : ∀ (access : Access) (isStatic isFinal : Bool),
      "static".toList ∈ (access.modifiers isStatic isFinal).toList.splitOn ' ' ↔ isStatic := by
    intro access isStatic isFinal
    cases access <;> cases isStatic <;> cases isFinal <;> decide
  exact hwords f.access f.isStatic f.isFinal

/-- The constructor of an emitted class. Its limits are left out, so both of them are one. -/
def ClassFile.constructor (file : ClassFile) : MethodBlock :=
  { modifiers := "public ", name := "<init>", descriptor := ⟨[], .void⟩, stackLimit := 1
    localsLimit := 1, code := constructorCode file.superclass }

end Jvm

namespace Semantics

open Jvm (ClassFile FieldDirective Resolver assembleField)
open Lowering (SameField)

variable {P : Platform} {file : ClassFile} {options : Options} {p p' : Program}
  {symbols : SymbolTable} {c : Ir.Class} {object : Value} {w : World}

/-- What a static field begins with: the value in its line, or zero. A class with a value that is not
of the type of its field is not loaded at all. -/
def startOf (d : FieldDirective) : Value :=
  match d.initialValue with
  | some word => narrow d.descriptor (.int word)
  | none => zeroOf d.descriptor

/-- What a field of an emitted class reads as on an object. The value in a line is for static fields,
and no emitted instruction writes one of these. -/
def readField (file : ClassFile) (d : FieldDirective) (object : Value) : Action Value :=
  if d.IsStatic then pure (startOf d)
  else getField (zeroOf d.descriptor) file.name d.name object

/-- Makes an object of an emitted class, all of whose fields are unwritten, and runs the constructor
on it. -/
def construct (P : Platform) (file : ClassFile) (fuel : Nat) : Action Value := do
  let object ← alloc (.object file.name [])
  let _ ← jvmRun P false file.constructor object [] fuel
  return object

/-- A constructor of a superclass returns and leaves the fields of a class as they are, those of the
object that it is called on included. -/
def SparesFields (P : Platform) (owner : String) : Prop :=
  ∀ ⦃heap address className fields⦄, heap[address]? = some (.object className fields) →
    ∃ v heap' fields', P.reply heap (.object (.ref address)) "<init>" [] = .returned v heap' ∧
      heap'[address]? = some (.object className fields') ∧
      ∀ name, fields'.lookup (owner, name) = fields.lookup (owner, name)

theorem sparesFields_of_inert
    (h : ∀ heap target name args, P.reply heap target name args = .returned .null heap)
    (owner : String) : SparesFields P owner :=
  fun heap _ _ fields hcell => ⟨.null, heap, fields, h _ _ _ _, hcell, fun _ => rfl⟩

/-! ## The run of the constructor -/

/-- The constructor does what that of the superclass does, and nothing else. -/
theorem constructor_run (P : Platform) (file : ClassFile) (address fuel : Nat) (w : World) :
    jvmRun P false file.constructor (.ref address) [] (fuel + 3) w
      = (P.answer (.object (.ref address)) "<init>" [] >>= fun _ => pure none) w := by
  let start := jvmStart false (.ref address) []
  have hload : jvmMachine P file.constructor start w = .ok (.next (start.next [.ref address])) w :=
    rfl
  have hinvoke : jvmMachine P file.constructor (start.next [.ref address]) w
      = ((P.answer (.object (.ref address)) "<init>" [] >>= fun _ => pure []) >>= fun stack =>
          pure (Flow.next ((start.next [.ref address]).next stack))) w := rfl
  rw [jvmRun, Machine.run_succ hload, Machine.run, Action.bind_apply, hinvoke, bind_assoc,
    Action.bind_apply, Action.bind_apply]
  cases P.answer (.object (.ref address)) "<init>" [] w <;> rfl

theorem getField_apply {w : World} {address : Nat} {className : String}
    {fields : List ((String × String) × Value)}
    (h : w.heap[address]? = some (.object className fields)) (initial : Value)
    (owner name : String) :
    getField initial owner name (.ref address) w
      = .ok ((fields.lookup (owner, name)).getD initial) w := by
  have hderef : deref (.ref address) w = .ok (address, .object className fields) w := by
    simp only [deref, h]
  have hfields : fieldsOf (.ref address) w = .ok (address, className, fields) w := by
    rw [fieldsOf, Action.bind_apply, hderef]
    rfl
  rw [getField, Action.bind_apply, hfields]
  rfl

/-- An object can be made, and the fields of the class are still unwritten in it. -/
theorem construct_gives (hspares : SparesFields P file.name) (w : World) :
    ∃ object w', (∃ fuel, construct P file fuel w = .ok object w') ∧
      ∀ initial name, getField initial file.name name object w' = .ok initial w' := by
  have hcell : (w.heap ++ [.object file.name []])[w.heap.length]? = some (.object file.name []) :=
    List.getElem?_concat_length
  obtain ⟨v, heap, fields, hreply, hobject, hfields⟩ := hspares hcell
  let left : World :=
    { heap, calls := w.calls ++ [⟨.object (.ref w.heap.length), "<init>", []⟩] }
  refine ⟨.ref w.heap.length, left, ⟨3, ?made⟩, fun initial name => ?read⟩
  case made =>
    have hrun : jvmRun P false file.constructor (.ref w.heap.length) [] 3
        { w with heap := w.heap ++ [.object file.name []] } = .ok none left := by
      rw [constructor_run P file _ 0, Action.bind_apply, Platform.answer, hreply]
      rfl
    rw [construct, Action.bind_apply, alloc]
    dsimp only
    rw [Action.bind_apply, hrun]
    rfl
  case read =>
    rw [getField_apply (w := left) hobject, hfields]
    rfl

/-! ## Initializers -/

/-- What becomes of a field in a new object. One that is not static reads as zero, whatever its
initializer says. So a field holds the literal of its type that it is declared with just if it is
static or the literal is zero; an initializer that is no literal does not compile. -/
structure StartsAs (file : ClassFile) (object : Value) (w : World) (f : Field)
    (d : FieldDirective) : Prop where
  name : d.name = f.name
  literal : ∀ e, f.initializer = some e → ∃ l, e = .literal l
  zero : f.isStatic = false → readField file d object w = .ok (zeroOf d.descriptor) w
  holds : ∀ l, f.initializer = some (.literal l) → l.ty = f.ty →
    (readField file d object w = .ok (.int l.word) w ↔ f.isStatic ∨ l.word = 0)

theorem narrow_word (r : Resolver) (l : Literal) :
    narrow (r.descriptor l.ty) (.int l.word) = .int l.word := by
  cases l with
  | int n => rfl
  | bool b => cases b <;> rfl

theorem zeroOf_literal (r : Resolver) (l : Literal) : zeroOf (r.descriptor l.ty) = .int 0 := by
  cases l <;> rfl

/-- The value of a line takes effect just if the field is static. -/
theorem startsAs_of_sameField {f : Field} {field : Ir.Field} (hsame : SameField f field)
    (r : Resolver) (hzero : ∀ initial name, getField initial file.name name object w = .ok initial w) :
    StartsAs file object w f (assembleField r field) := by
  have hstatic : (assembleField r field).IsStatic ↔ f.isStatic := by
    rw [Jvm.assembleField_isStatic, hsame.isStatic]
  have hlost : f.isStatic = false → readField file (assembleField r field) object w
      = .ok (zeroOf (r.descriptor field.ty)) w := by
    intro hf
    rw [readField, if_neg (by rw [hstatic, hf]; exact Bool.false_ne_true)]
    exact hzero _ _
  refine ⟨hsame.name, fun e he => ?literal, hlost, fun l hl hty => ?holds⟩
  case literal =>
    rw [hsame.initializer] at he
    obtain ⟨l, _, rfl⟩ := Option.map_eq_some_iff.mp he
    exact ⟨l, rfl⟩
  case holds =>
    cases hf : f.isStatic with
    | false =>
      rw [hlost hf, hsame.ty, ← hty, zeroOf_literal]
      simp [eq_comm]
    | true =>
      have hvalue : field.initialValue = some l := by
        rw [hsame.initializer] at hl
        obtain ⟨l', hl', heq⟩ := Option.map_eq_some_iff.mp hl
        cases heq
        exact hl'
      have hstart : startOf (assembleField r field) = .int l.word := by
        rw [startOf, assembleField, hvalue, hsame.ty, ← hty]
        exact narrow_word r l
      rw [readField, if_pos (hstatic.mpr hf), hstart]
      simp [pure]

/-- In a program that compiles an object can be made of the class, and then each field with an
initializer holds its value just if it is static or the value is zero: the constructor does not set
the other ones. -/
theorem compile_initializes_static {diagnostics : List Diagnostic} {checked : Checked}
    {units : List AssemblyUnit} (hchecked : Checked.ofProgram p diagnostics = .ok checked)
    (hspares : SparesFields P p.mainClass.name) (h : Compiler.compile options checked = .ok units) :
    ∃ file, units = Compiler.units [file] ∧ ∀ w, ∃ object w',
      (∃ fuel, construct P file fuel w = .ok object w') ∧
        List.Forall₂ (StartsAs file object w') p.mainClass.fields file.fields := by
  obtain ⟨p', c, file, hcompilation, _, hunits⟩ := compile_gives hchecked h
  obtain ⟨hfields, hname⟩ := hcompilation.source.fields
  have hfile : file.name = p.mainClass.name :=
    (hcompilation.emitted.name.trans hcompilation.lowered.name).trans hname
  refine ⟨file, hunits, fun w => ?_⟩
  obtain ⟨object, w', hmade, hzero⟩ := construct_gives (hfile ▸ hspares) w
  refine ⟨object, w', hmade, ?_⟩
  rw [hcompilation.emitted.fields, List.forall₂_map_right_iff, ← hfields]
  exact hcompilation.lowered.fields.imp fun f field hsame => startsAs_of_sameField hsame _ hzero

/-- Of a static field and another one, only the first is initialized. -/
theorem compile_initializes_static_mixed :
    let n : Field :=
      { name := "n", ty := .int, isStatic := true, initializer := some (.literal (.int 7)) }
    let b : Field := { name := "b", ty := .boolean, initializer := some (.literal (.bool true)) }
    let p : Program := { mainClass := { name := "A", fields := [n, b] } }
    let symbols : SymbolTable :=
      { className := "A", superclass := none, imports := [], fields := [⟨"n", .int⟩, ⟨"b", .boolean⟩]
        methods := [] }
    let P := words id fun heap _ _ _ => .returned .null heap
    Checked.ofProgram p [] = .ok { program := p, symbols } ∧ SparesFields P "A" ∧
      ∃ file, Compiler.compile {} { program := p, symbols } = .ok (Compiler.units [file]) ∧
        ∀ w, ∃ object w' dn db, (∃ fuel, construct P file fuel w = .ok object w') ∧
          file.fields = [dn, db] ∧ readField file dn object w' = .ok (.int 7) w' ∧
          readField file db object w' ≠ .ok (.int 1) w' := by
  intro n b p symbols P
  let c : Ir.Class := {
    name := "A"
    fields := [{ name := "n", ty := .int, isStatic := true, initialValue := some (.int 7) },
      { name := "b", ty := .boolean, initialValue := some (.bool true) }] }
  have hchecked : Checked.ofProgram p [] = .ok { program := p, symbols } := rfl
  have hspares : SparesFields P "A" := sparesFields_of_inert (fun _ _ _ _ => rfl) "A"
  have hlower : Compiler.lower {} { program := p, symbols } = .ok { classes := [c] } := rfl
  have hcompile := compile_of_gives hlower (n := 0) rfl
  obtain ⟨file, hunits, hmade⟩ := compile_initializes_static hchecked hspares hcompile
  refine ⟨hchecked, hspares, file, hunits ▸ hcompile, fun w => ?_⟩
  obtain ⟨object, w', hconstruct, hfields⟩ := hmade w
  obtain ⟨dn, rest, hn, hrest, hfile⟩ := List.forall₂_cons_left_iff.mp hfields
  obtain ⟨db, rest', hb, hrest', rfl⟩ := List.forall₂_cons_left_iff.mp hrest
  cases hrest'
  refine ⟨object, w', dn, db, hconstruct, hfile, (hn.holds (.int 7) rfl rfl).mpr (.inl rfl), ?_⟩
  exact mt (hb.holds (.bool true) rfl rfl).mp (by decide)

/-- A field that is declared with three and is not static reads as zero in a new object. -/
theorem instance_initializer_lost :
    let x : Field := { name := "x", ty := .int, initializer := some (.literal (.int 3)) }
    let p : Program := { mainClass := { name := "A", fields := [x] } }
    let d : FieldDirective :=
      { modifiers := "public ", name := "x", descriptor := .int, initialValue := some 3 }
    let file : ClassFile :=
      { name := "A", superclass := "java/lang/Object", fields := [d], methods := [] }
    let P := words id fun heap _ _ _ => .returned .null heap
    Compiler.compileProgram {} p = .ok (Compiler.units [file]) ∧
      ∀ w, ∃ object w', (∃ fuel, construct P file fuel w = .ok object w') ∧
        readField file d object w' = .ok (.int 0) w' := by
  intro x p d file P
  refine ⟨rfl, fun w => ?_⟩
  obtain ⟨object, w', hmade, hzero⟩ :=
    construct_gives (sparesFields_of_inert (P := P) (fun _ _ _ _ => rfl) file.name) w
  refine ⟨object, w', hmade, ?_⟩
  rw [readField, if_neg (by decide)]
  exact hzero _ _

end Semantics

end MiniJava
