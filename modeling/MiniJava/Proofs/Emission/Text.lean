import MiniJava.Proofs.Emission.Reader

/-!
# The text of a class is read as its methods

The lines of a class that are not in a method say nothing about its code. A method is read from its
first line to its last one with its limits and its instructions, and the constructor, which has no
limits, as one with the least that a method has.
-/

namespace MiniJava.Jvm

/-! ## Names in methods and classes -/

/-- Words for how something may be used, each with a blank behind it. -/
def AreWords (modifiers : String) : Prop :=
  ∃ ws : List String, (∀ w ∈ ws, IsWord w) ∧ modifiers = String.join (ws.map (· ++ " "))

/-- The names in a method can be read. -/
structure MethodBlock.Legible (b : MethodBlock) : Prop where
  modifiers : AreWords b.modifiers
  name : Jvm.Legible b.name
  descriptor : b.descriptor.Legible
  code : ∀ i ∈ b.code, i.Legible

/-- The names in a field can be read. -/
structure FieldDirective.Legible (d : FieldDirective) : Prop where
  modifiers : AreWords d.modifiers
  name : Jvm.Legible d.name
  descriptor : d.descriptor.Legible

/-- The names in a class can be read. -/
structure ClassFile.Legible (c : ClassFile) : Prop where
  name : Unmarked c.name
  superclass : Unmarked c.superclass
  fields : ∀ d ∈ c.fields, d.Legible
  methods : ∀ b ∈ c.methods, b.Legible

/-! ## Lines -/

/-- A text of whole lines that are read as some lines. -/
def ReadsAs (text : String) (lines : List Line) : Prop :=
  ∀ rest, readLines (text.toList ++ rest) = (readLines rest).map (lines ++ ·)

theorem LineReads.readsAs {line : String} {read : Line} (h : LineReads line read) :
    ReadsAs (line ++ "\n") [read] := by
  intro rest
  rw [String.toList_append, show "\n".toList = ['\n'] by decide, List.append_assoc,
    List.singleton_append, readLines, List.splitOn_append_cons_self_of_not_mem h.unbroken,
    List.mapM_cons, h.reads, readLines]
  cases (rest.splitOn '\n').mapM readLine <;> rfl

namespace ReadsAs

theorem empty : ReadsAs "" [] := by
  intro rest
  rw [show "".toList = [] by decide, List.nil_append]
  cases readLines rest <;> rfl

theorem append {a b : String} {ls ls' : List Line} (ha : ReadsAs a ls) (hb : ReadsAs b ls') :
    ReadsAs (a ++ b) (ls ++ ls') := by
  intro rest
  rw [String.toList_append, List.append_assoc, ha, hb, Option.map_map]
  exact congrArg (Option.map · _) (funext fun lines => (List.append_assoc ls ls' lines).symm)

theorem join {α : Type} {text : α → String} {lines : α → List Line} :
    ∀ {items : List α}, (∀ a ∈ items, ReadsAs (text a) (lines a)) →
      ReadsAs (String.join (items.map text)) (items.flatMap lines)
  | [], _ => empty
  | a :: rest, h => by
    rw [List.forall_mem_cons] at h
    rw [List.map_cons, String.join_cons, List.flatMap_cons]
    exact h.1.append (join h.2)

theorem readMethods {text : String} {lines : List Line} (h : ReadsAs text lines) :
    readMethods text = methodsIn none (lines ++ [.other]) := by
  have hall := h []
  rw [List.append_nil] at hall
  rw [Jvm.readMethods, hall]
  rfl

end ReadsAs

/-! ## Methods -/

theorem readsAs_code {code : List Instr} (h : ∀ i ∈ code, i.Legible) :
    ReadsAs (String.join (code.map (·.line))) (code.map .instr) := by
  rw [← List.flatMap_singleton' (code.map Line.instr), List.flatMap_map]
  refine .join fun i hi => ?_
  obtain ⟨line, hline, hreads⟩ := Instr.reads (h i hi)
  rw [hline]
  exact hreads.readsAs

theorem splitOn_modifiers {last : String} (hlast : IsWord last) :
    ∀ {ws : List String}, (∀ w ∈ ws, IsWord w) →
      ((String.join (ws.map (· ++ " ")) ++ last).toList.splitOn ' ').map String.ofList = ws ++ [last]
  | [], _ => by
    rw [List.map_nil, String.join_nil, String.empty_append, splitOn_word hlast]
    rfl
  | w :: rest, h => by
    rw [List.forall_mem_cons] at h
    rw [List.map_cons, String.join_cons, String.append_assoc, String.append_assoc, String.toList_append,
      String.toList_append, show " ".toList = [' '] by decide, List.singleton_append,
      List.splitOn_append_cons_self_of_not_mem h.1.1, List.map_cons, String.ofList_toList,
      splitOn_modifiers hlast h.2]
    rfl

theorem words_directive {directive : String} (h : IsWord directive) (hne : directive ≠ "")
    (rest : String) : words (directive ++ " " ++ rest).toList =
      directive :: (rest.toList.splitOn ' ').map String.ofList := by
  rw [String.toList_append, String.toList_append, List.append_assoc,
    show " ".toList = [' '] by decide, List.singleton_append, words_cons h hne]

theorem unbroken_modifiers {modifiers : String} (h : AreWords modifiers) :
    '\n' ∉ modifiers.toList := by
  obtain ⟨ws, hws, rfl⟩ := h
  induction ws with
  | nil => decide
  | cons w rest ih =>
    rw [List.forall_mem_cons] at hws
    rw [List.map_cons, String.join_cons]
    exact unbroken_append.mpr ⟨unbroken_append.mpr ⟨hws.1.2, by decide⟩, ih hws.2⟩

/-- A method without limits and code. -/
def MethodBlock.header (b : MethodBlock) : MethodBlock :=
  { b with stackLimit := 1, localsLimit := 1, code := [] }

theorem header_reads {b : MethodBlock} (h : b.Legible) :
    LineReads (".method " ++ b.modifiers ++ b.name ++ b.descriptor.text) (.method b.header) := by
  have hlast : IsWord (b.name ++ b.descriptor.text) :=
    isWord_append.mpr ⟨h.name.1.isWord, h.descriptor.isWord⟩
  have hname : '(' ∉ b.name.toList := fun hmem => h.name.1 _ hmem (by decide)
  have hunbroken := unbroken_modifiers h.modifiers
  refine ⟨?_, ?_⟩
  · exact unbroken_append.mpr ⟨unbroken_append.mpr ⟨unbroken_append.mpr ⟨by decide, hunbroken⟩,
      h.name.1.isWord.2⟩, h.descriptor.isWord.2⟩
  · obtain ⟨ws, hws, hmodifiers⟩ := h.modifiers
    rw [String.append_assoc, String.append_assoc, show ".method " = ".method" ++ " " by decide, readLine,
      words_directive (by decide) (by decide), hmodifiers, splitOn_modifiers hlast hws]
    show readHeader (ws ++ [b.name ++ b.descriptor.text]) = _
    rw [readHeader, List.getLast?_concat, List.dropLast_concat]
    simp only [Option.bind_eq_bind, Option.bind_some, readMethodName_text hname h.descriptor,
      String.ofList_toList, ← hmodifiers]
    rfl

/-- The lines of a method. -/
def MethodBlock.lines (b : MethodBlock) : List Line :=
  [.method b.header, .stack b.stackLimit, .locals b.localsLimit] ++ b.code.map .instr ++ [.ends]

theorem limit_reads {m : String} {limit : Nat} {read : Line} (hm : IsWord m)
    (hread : ∀ operand, readNat operand.toList = some limit →
      readWords [".limit", m, operand] = some read) :
    ReadsAs ("    .limit " ++ m ++ " " ++ toString limit ++ "\n") [read] := by
  have hline := (reads_triple (m := ".limit") (by decide) (by decide) hm (isWord_toString limit)
    (hread _ (readNat_toString limit))).readsAs
  rw [show "    .limit " = "    " ++ ".limit" ++ " " by decide]
  simp only [String.append_assoc, -String.reduceAppend] at hline ⊢
  exact hline

theorem ends_reads : ReadsAs ".end method\n" [.ends] := by
  have hline : LineReads ".end method" .ends := ⟨by decide, rfl⟩
  exact hline.readsAs

theorem MethodBlock.readsAs {b : MethodBlock} (h : b.Legible) : ReadsAs b.text b.lines := by
  have hstack : ReadsAs ("    .limit stack " ++ toString b.stackLimit ++ "\n")
      [.stack b.stackLimit] :=
    limit_reads (m := "stack") (by decide) fun _ h => congrArg (Option.map Line.stack) h
  have hlocals : ReadsAs ("    .limit locals " ++ toString b.localsLimit ++ "\n")
      [.locals b.localsLimit] :=
    limit_reads (m := "locals") (by decide) fun _ h => congrArg (Option.map Line.locals) h
  have hall := ((((header_reads h).readsAs.append hstack).append hlocals).append
    (readsAs_code h.code)).append ends_reads
  have htext : b.text = ".method " ++ b.modifiers ++ b.name ++ b.descriptor.text ++ "\n"
      ++ ("    .limit stack " ++ toString b.stackLimit ++ "\n")
      ++ ("    .limit locals " ++ toString b.localsLimit ++ "\n")
      ++ String.join (b.code.map (·.line)) ++ ".end method\n" := by
    unfold MethodBlock.text
    simp only [← String.append_assoc]
  rw [htext]
  exact hall

theorem methodsIn_code (rest : List Line) : ∀ (code : List Instr) (b : MethodBlock),
    methodsIn (some b) (code.map .instr ++ [.ends] ++ rest) =
      (methodsIn none rest).map ({ b with code := b.code ++ code } :: ·)
  | [], b => by
    rw [List.append_nil]
    rfl
  | i :: code, b => by
    rw [List.map_cons, List.cons_append, List.cons_append, methodsIn, methodsIn_code rest code,
      List.append_assoc]
    rfl

theorem methodsIn_lines (b : MethodBlock) (rest : List Line) :
    methodsIn none (b.lines ++ rest) = (methodsIn none rest).map (b :: ·) := by
  show methodsIn (some { b with code := [] }) (b.code.map .instr ++ [.ends] ++ rest) = _
  exact methodsIn_code rest b.code _

theorem readMethods_method {b : MethodBlock} (h : b.Legible) : readMethods b.text = some [b] := by
  rw [(MethodBlock.readsAs h).readMethods, methodsIn_lines]
  rfl

/-! ## Classes -/

theorem methodsIn_other : ∀ {front : List Line}, (∀ line ∈ front, line = .other) →
    ∀ rest, methodsIn none (front ++ rest) = methodsIn none rest
  | [], _, _ => rfl
  | line :: front, h, rest => by
    rw [List.forall_mem_cons] at h
    rw [h.1, List.cons_append, methodsIn, methodsIn_other h.2]

/-- The constructor of an emitted class, as it is read. -/
def constructorBlock (superclass : String) : MethodBlock :=
  { modifiers := "public ", name := "<init>", descriptor := ⟨[], .void⟩, stackLimit := 1
    localsLimit := 1, code := constructorCode superclass }

theorem readDirective_other {m : String} (hmethod : m ≠ ".method") (hlimit : m ≠ ".limit")
    (hends : m ≠ ".end") (ws : List String) : readDirective (m :: ws) = some .other := by
  unfold readDirective
  split <;> simp_all

theorem other_reads {m rest : String} (h : IsWord m) (hpoint : m.toList.head? = some '.')
    (hmethod : m ≠ ".method") (hlimit : m ≠ ".limit") (hends : m ≠ ".end")
    (hrest : '\n' ∉ rest.toList) : ReadsAs (m ++ " " ++ rest ++ "\n") [.other] := by
  have hne : m ≠ "" := by
    rintro rfl
    exact absurd hpoint (by decide)
  refine LineReads.readsAs ⟨?_, ?_⟩
  · exact unbroken_append.mpr ⟨unbroken_append.mpr ⟨h.2, by decide⟩, hrest⟩
  · rw [readLine, words_directive h hne, readWords, if_neg fun heq => hne (List.cons.inj heq).1,
      List.head?_cons, Option.bind_some, if_pos hpoint, readDirective_other hmethod hlimit hends]

theorem empty_reads : ReadsAs "\n" [.other] := by
  have hline : LineReads "" .other := ⟨by decide, rfl⟩
  exact hline.readsAs

theorem FieldDirective.reads {d : FieldDirective} (h : d.Legible) : ReadsAs d.text [.other] := by
  have hread : ∀ initial : String, '\n' ∉ initial.toList →
      ReadsAs (".field " ++ d.modifiers ++ d.name ++ " " ++ d.descriptor.text ++ initial ++ "\n")
        [.other] := by
    intro initial hinitial
    have hrest := unbroken_append.mpr ⟨unbroken_append.mpr ⟨unbroken_append.mpr ⟨unbroken_append.mpr
      ⟨unbroken_modifiers h.modifiers, h.name.1.isWord.2⟩, (by decide : '\n' ∉ " ".toList)⟩,
      h.descriptor.isWord.2⟩, hinitial⟩
    have hline := other_reads (m := ".field") (by decide) (by decide) (by decide) (by decide)
      (by decide) hrest
    rw [show ".field " = ".field" ++ " " by decide]
    simp only [String.append_assoc, -String.reduceAppend] at hline ⊢
    exact hline
  unfold FieldDirective.text
  cases d.initialValue with
  | none => exact hread "" (by decide)
  | some value => exact hread _ (unbroken_append.mpr ⟨by decide, (isWord_toString_int _).2⟩)

theorem constructor_legible {superclass : String} (h : Unmarked superclass) :
    (constructorBlock superclass).Legible where
  modifiers := ⟨["public"], by decide, (by decide : "public " = String.join (["public"].map (· ++ " ")))⟩
  name := (by decide : Jvm.Legible "<init>")
  descriptor := ⟨nofun, trivial⟩
  code := by
    simp only [constructorBlock, constructorCode, List.forall_mem_cons]
    exact ⟨trivial, ⟨h, by decide, nofun, trivial⟩, trivial, List.forall_mem_nil _⟩

/-- The lines of the constructor, which has no limits. -/
def constructorLines (superclass : String) : List Line :=
  [.method (constructorBlock superclass).header] ++ (constructorCode superclass).map .instr ++ [.ends]

theorem constructor_readsAs {superclass : String} (h : Unmarked superclass) :
    ReadsAs (".method public <init>()V\n" ++ String.join ((constructorCode superclass).map (·.line))
      ++ ".end method\n") (constructorLines superclass) := by
  have hlegible := constructor_legible h
  have hheader : ReadsAs ".method public <init>()V\n" [.method (constructorBlock superclass).header] :=
    (header_reads hlegible).readsAs
  exact (hheader.append (readsAs_code hlegible.code)).append ends_reads

theorem methodsIn_constructor (superclass : String) (rest : List Line) :
    methodsIn none (constructorLines superclass ++ rest) =
      (methodsIn none rest).map (constructorBlock superclass :: ·) := by
  show methodsIn (some { constructorBlock superclass with code := [] })
    ((constructorCode superclass).map .instr ++ [.ends] ++ rest) = _
  exact methodsIn_code rest (constructorCode superclass) _

theorem methodsIn_methods (rest : List Line) : ∀ blocks : List MethodBlock,
    methodsIn none (blocks.flatMap (fun b => [.other] ++ b.lines) ++ rest) =
      (methodsIn none rest).map (blocks ++ ·)
  | [] => by cases h : methodsIn none rest <;> simp [h]
  | b :: blocks => by
    rw [List.flatMap_cons, List.append_assoc, List.append_assoc]
    show methodsIn none (b.lines ++ _) = _
    rw [methodsIn_lines, methodsIn_methods rest blocks, Option.map_map]
    rfl

/-- The text of a class is read as its constructor and its methods. -/
theorem readMethods_class {c : ClassFile} (h : c.Legible) :
    readMethods c.text = some (constructorBlock c.superclass :: c.methods) := by
  have hname : ReadsAs (".class" ++ " " ++ ("public " ++ c.name) ++ "\n") [.other] :=
    other_reads (by decide) (by decide) (by decide) (by decide) (by decide)
      (unbroken_append.mpr ⟨by decide, h.name.isWord.2⟩)
  have hsuper : ReadsAs (".super" ++ " " ++ c.superclass ++ "\n") [.other] :=
    other_reads (by decide) (by decide) (by decide) (by decide) (by decide) h.superclass.isWord.2
  have hfields : ReadsAs (String.join (c.fields.map (·.text))) (c.fields.flatMap fun _ => [.other]) :=
    .join fun d hd => FieldDirective.reads (h.fields d hd)
  have hgap : ReadsAs (if c.fields.isEmpty then "" else "\n")
      (if c.fields.isEmpty then [] else [.other]) := by
    split
    · exact .empty
    · exact empty_reads
  have hmethods : ReadsAs (String.join (c.methods.map fun b => "\n" ++ b.text))
      (c.methods.flatMap fun b => [.other] ++ b.lines) :=
    .join fun b hb => empty_reads.append (MethodBlock.readsAs (h.methods b hb))
  have hall := (((((hname.append hsuper).append empty_reads).append hfields).append hgap).append
    (constructor_readsAs h.superclass)).append hmethods
  have htext : c.text = ".class" ++ " " ++ ("public " ++ c.name) ++ "\n"
      ++ (".super" ++ " " ++ c.superclass ++ "\n") ++ "\n" ++ String.join (c.fields.map (·.text))
      ++ (if c.fields.isEmpty then "" else "\n")
      ++ (".method public <init>()V\n" ++ String.join ((constructorCode c.superclass).map (·.line))
        ++ ".end method\n")
      ++ String.join (c.methods.map fun b => "\n" ++ b.text) := by
    unfold ClassFile.text
    rw [show ".class public " = ".class" ++ " " ++ "public " by decide,
      show "\n.super " = "\n" ++ ".super" ++ " " by decide, show "\n\n" = "\n" ++ "\n" by decide]
    simp only [← String.append_assoc]
  have hother : ∀ line ∈ [Line.other] ++ [.other] ++ [.other] ++ (c.fields.flatMap fun _ => [.other])
      ++ (if c.fields.isEmpty then [] else [.other]), line = .other := by
    intro line hline
    rcases List.mem_append.mp hline with hline | hline
    · simp only [List.mem_append, List.mem_flatMap, List.mem_singleton] at hline
      rcases hline with ((rfl | rfl) | rfl) | ⟨_, _, rfl⟩ <;> rfl
    · split at hline
      · cases hline
      · exact List.mem_singleton.mp hline
  rw [htext, hall.readMethods, List.append_assoc, List.append_assoc, methodsIn_other hother,
    methodsIn_constructor, methodsIn_methods]
  simp [methodsIn]

end MiniJava.Jvm
