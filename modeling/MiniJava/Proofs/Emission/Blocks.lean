import Mathlib.Data.List.Forall2
import MiniJava.Jvm.Assembly
import MiniJava.Proofs.Success

/-!
# Emitted methods

A generator emits the methods of classes and of modules one after another. Whatever it emits, each
method comes out of the emission of its instructions, from the label number that the methods before
it left.
-/

namespace MiniJava.Jvm

variable {options : Options} {owner : Ir.Class} {m : Ir.Method} {block : MethodBlock} {n n' : Nat}

/-- What the emission of a method of a class looks at. -/
def frameOf (options : Options) (owner : Ir.Class) (m : Ir.Method) : Frame :=
  { method := m, owner, negation := options.negation }

/-- A method is emitted from the label number that it begins with, to a state. -/
structure MethodEmitted (options : Options) (owner : Ir.Class) (m : Ir.Method) (n : Nat)
    (block : MethodBlock) (s : Emitted) : Prop where
  instrs : Gives (emitInstrs (frameOf options owner m) m.instructions) { nextLabel := n } () s
  modifiers : block.modifiers = m.access.modifiers m.isStatic m.isFinal
  name : block.name = m.name
  descriptor : block.descriptor =
    (Resolver.ofClass owner).methodDescriptor (m.params.map (·.ty)) m.returnTy
  stackLimit : block.stackLimit = s.stack.limit options.stackPolicy
  localsLimit : block.localsLimit = m.localsLimit
  code : block.code = s.code.toList

theorem assembleMethod_gives (h : Gives (assembleMethod options owner m) n block n') :
    ∃ s, MethodEmitted options owner m n block s ∧ s.nextLabel = n' := by
  have hassemble : ((assembleMethod options owner m).run).run n =
      let r := ((emitInstrs (frameOf options owner m) m.instructions).run).run { nextLabel := n }
      (r.1.map fun _ => {
        modifiers := m.access.modifiers m.isStatic m.isFinal
        name := m.name
        descriptor := (frameOf options owner m).resolver.methodDescriptor (m.params.map (·.ty))
          m.returnTy
        stackLimit := r.2.stack.limit options.stackPolicy
        localsLimit := m.localsLimit
        code := r.2.code.toList }, r.2.nextLabel) := rfl
  rw [Gives, hassemble] at h
  cases hrun : ((emitInstrs (frameOf options owner m) m.instructions).run).run { nextLabel := n } with
  | mk result s =>
    rw [hrun] at h
    cases result with
    | error e => cases h
    | ok u =>
      cases h
      exact ⟨s, ⟨hrun, rfl, rfl, rfl, rfl, rfl, rfl⟩, rfl⟩

theorem assembleMethods_each : ∀ {methods : List Ir.Method} {blocks : List MethodBlock}
    {n n' : Nat}, Gives (assembleMethods options owner methods) n blocks n' →
      List.Forall₂ (fun m block => ∃ n s, MethodEmitted options owner m n block s) methods blocks
  | [], blocks, n, n', h => by
    obtain ⟨rfl, rfl⟩ := Gives.pure_iff.mp h
    exact .nil
  | m :: rest, blocks, n, n', h => by
    rw [assembleMethods] at h
    obtain ⟨block, n₁, hblock, h⟩ := h.bind
    obtain ⟨more, n₂, hmore, h⟩ := h.bind
    obtain ⟨rfl, rfl⟩ := Gives.pure_iff.mp h
    obtain ⟨s, hemitted, rfl⟩ := assembleMethod_gives hblock
    exact .cons ⟨n, s, hemitted⟩ (assembleMethods_each hmore)

/-- A class is emitted: its fields are those of the class one by one, and so are its methods. -/
structure ClassEmitted (options : Options) (c : Ir.Class) (file : ClassFile) : Prop where
  name : file.name = c.name
  superclass : file.superclass = (Resolver.ofClass c).superclass c.superclass
  fields : file.fields = c.fields.map (assembleField (Resolver.ofClass c))
  methods : List.Forall₂ (fun m block => ∃ n s, MethodEmitted options c m n block s)
    c.methods file.methods

theorem assembleClass_emitted {c : Ir.Class} {file : ClassFile}
    (h : Gives (assembleClass options c) n file n') : ClassEmitted options c file := by
  rw [assembleClass] at h
  obtain ⟨blocks, n₁, hblocks, h⟩ := h.bind
  obtain ⟨rfl, rfl⟩ := Gives.pure_iff.mp h
  exact ⟨rfl, rfl, rfl, assembleMethods_each hblocks⟩

theorem assembleClasses_each : ∀ {classes : List Ir.Class} {files : List ClassFile} {n n' : Nat},
    Gives (assembleClasses options classes) n files n' →
      List.Forall₂ (ClassEmitted options) classes files
  | [], files, n, n', h => by
    obtain ⟨rfl, rfl⟩ := Gives.pure_iff.mp h
    exact .nil
  | c :: rest, files, n, n', h => by
    rw [assembleClasses] at h
    obtain ⟨file, n₁, hfile, h⟩ := h.bind
    obtain ⟨more, n₂, hmore, h⟩ := h.bind
    obtain ⟨rfl, rfl⟩ := Gives.pure_iff.mp h
    exact .cons (assembleClass_emitted hfile) (assembleClasses_each hmore)

theorem assemble_class {c : Ir.Class} {files : List ClassFile}
    (h : Gives (assemble options { classes := [c] }) n files n') :
    ∃ file, files = [file] ∧ ClassEmitted options c file := by
  obtain ⟨file, rest, hfile, hrest, rfl⟩ := List.forall₂_cons_left_iff.mp (assembleClasses_each h)
  cases hrest
  exact ⟨file, rfl, hfile⟩

end MiniJava.Jvm
