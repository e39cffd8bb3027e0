import MiniJava.Jvm.Assembly
import MiniJava.Proofs.Emission.Descriptors

/-!
# Emitted text is read back

An assembler sees lines and the words in them. The reader here takes the text of a class apart in this
way, by a table of the instructions of the machine and without a look at how they are written: which
register a load is for, how wide a constant may be and which method is invoked are told from the words
alone. Names that have none of the marks of the text in them are read as they are, and the text of a
class is read as its methods.
-/

namespace MiniJava.Jvm

/-! ## Words and numbers -/

/-- The words of a line. Blanks in front of the first one do not count. -/
def words (line : List Char) : List String :=
  ((line.dropWhile (· == ' ')).splitOn ' ').map String.ofList

/-- The number that digits stand for. -/
def readNat (digits : List Char) : Option Nat :=
  if digits ≠ [] ∧ digits.all Char.isDigit then some (Nat.ofDigitChars 10 digits 0) else none

/-- The number that digits stand for, which may have a minus in front. -/
def readInt : List Char → Option Int
  | '-' :: digits => (readNat digits).map fun n => -(n : Int)
  | digits => (readNat digits).map fun n => (n : Int)

/-- What is in front of the last mark in a text, and what is behind it. -/
def splitLast (mark : Char) (text : List Char) : Option (List Char × List Char) :=
  if mark ∈ text then
    (text.splitOn mark).getLast?.map fun back => ([mark].intercalate (text.splitOn mark).dropLast, back)
  else none

/-! ## Labels -/

/-- The role with a text. -/
def readRole (stem : List Char) : Option LabelRole :=
  [.thenBranch, .endIf, .loopBody, .loopCondition, .andRight, .andEnd, .orTrue, .orEnd, .compareTrue,
    LabelRole.compareEnd].find? (·.stem.toList == stem)

/-- The label with a text: one with a role and a number, if there is such a one, else the text is its
name. -/
def readLabel (text : String) : Label :=
  let numbered := do
    let (stem, digits) ← splitLast '_' text.toList
    return Label.numbered (← readRole stem) (← readNat digits)
  (numbered.filter (·.text == text)).getD (.named text)

/-! ## Instructions -/

/-- The instructions that are single words. -/
def singleWords : List (String × Instr) :=
  [("iconst_m1", .push (-1)), ("iconst_0", .push 0), ("iconst_1", .push 1), ("iconst_2", .push 2),
    ("iconst_3", .push 3), ("iconst_4", .push 4), ("iconst_5", .push 5),
    ("iload_0", .load .word 0), ("iload_1", .load .word 1), ("iload_2", .load .word 2),
    ("iload_3", .load .word 3), ("aload_0", .load .reference 0), ("aload_1", .load .reference 1),
    ("aload_2", .load .reference 2), ("aload_3", .load .reference 3),
    ("istore_0", .store .word 0), ("istore_1", .store .word 1), ("istore_2", .store .word 2),
    ("istore_3", .store .word 3), ("astore_0", .store .reference 0), ("astore_1", .store .reference 1),
    ("astore_2", .store .reference 2), ("astore_3", .store .reference 3),
    ("dup", .dup), ("pop", .pop), ("iadd", .op .add), ("isub", .op .sub), ("imul", .op .mul),
    ("idiv", .op .div), ("iand", .op .and), ("ixor", .op .xor), ("arraylength", .arrayLength),
    ("iaload", .arrayLoad .int), ("baload", .arrayLoad .boolean), ("aaload", .arrayLoad .reference),
    ("iastore", .arrayStore .int), ("bastore", .arrayStore .boolean),
    ("aastore", .arrayStore .reference), ("return", .ret none), ("ireturn", .ret (some .word)),
    ("areturn", .ret (some .reference))]

/-- The push of a constant that has to be between two bounds. -/
def readPush (least greatest : Int) (operand : String) : Option Instr := do
  let n ← readInt operand.toList
  if least ≤ n ∧ n ≤ greatest then some (.push (.ofInt n)) else none

/-- What an array is allocated with: the descriptor of an array, or else the name of a class. -/
def readComponent (operand : String) : Option Descriptor :=
  match operand.toList with
  | '[' :: rest =>
    match readType ('[' :: rest) with
    | some (d, []) => some d
    | _ => none
  | _ => some (.object operand)

/-- An access to a field, given by the names of class and field and by a descriptor. -/
def readField (access : String → String → Descriptor → Instr) (member descriptor : String) :
    Option Instr := do
  let (owner, name) ← splitLast '/' member.toList
  match readType descriptor.toList with
  | some (d, []) => some (access (.ofList owner) (.ofList name) d)
  | _ => none

/-- The name and the types of a method. -/
def readMethodName (text : List Char) : Option (List Char × MethodDescriptor) :=
  (MethodDescriptor.read (text.dropWhile (· != '('))).map fun d => (text.takeWhile (· != '('), d)

/-- An invocation, given by the names of class and method and by the types of the method. -/
def readInvoke (invocation : Invocation) (operand : String) : Option Instr := do
  let (member, d) ← readMethodName operand.toList
  let (owner, name) ← splitLast '/' member
  return .invoke invocation (.ofList owner) (.ofList name) d

/-- An instruction with an operand. -/
def readOperand : String → String → Option Instr
  | "bipush", operand => readPush (-128) 127 operand
  | "sipush", operand => readPush (-32768) 32767 operand
  | "ldc", operand => readPush (-2147483648) 2147483647 operand
  | "iload", operand => (readNat operand.toList).map (.load .word)
  | "aload", operand => (readNat operand.toList).map (.load .reference)
  | "istore", operand => (readNat operand.toList).map (.store .word)
  | "astore", operand => (readNat operand.toList).map (.store .reference)
  | "new", operand => some (.new operand)
  | "newarray", "int" => some (.newArray .int)
  | "newarray", "boolean" => some (.newArray .boolean)
  | "anewarray", operand => (readComponent operand).map .newArray
  | "invokespecial", operand => readInvoke .special operand
  | "invokevirtual", operand => readInvoke .virtual operand
  | "invokestatic", operand => readInvoke .static operand
  | "goto", operand => some (.goto (readLabel operand))
  | "if_icmplt", operand => some (.ifLess (readLabel operand))
  | "ifne", operand => some (.ifTrue (readLabel operand))
  | _, _ => none

/-- The instruction that words stand for, or the label if there is a colon behind it. -/
def readInstr : List String → Option Instr
  | [word] =>
    if word.toList.getLast? = some ':' then
      some (.label (readLabel (.ofList word.toList.dropLast)))
    else singleWords.lookup word
  | [mnemonic, operand] => readOperand mnemonic operand
  | ["getfield", member, descriptor] => readField .getField member descriptor
  | ["putfield", member, descriptor] => readField .putField member descriptor
  | _ => none

/-! ## Methods -/

/-- A line of a class. -/
inductive Line where
  | method (header : MethodBlock)
  | stack (limit : Nat)
  | locals (limit : Nat)
  | instr (i : Instr)
  | ends
  | other

/-- The first line of a method: the words for how it may be used, then its name and its types. Without
a limit a method has one word of each. -/
def readHeader (ws : List String) : Option Line := do
  let (name, descriptor) ← readMethodName (← ws.getLast?).toList
  return .method {
    modifiers := String.join (ws.dropLast.map (· ++ " ")), name := .ofList name, descriptor
    stackLimit := 1, localsLimit := 1, code := [] }

/-- A line that begins with a point. -/
def readDirective : List String → Option Line
  | ".method" :: ws => readHeader ws
  | [".limit", "stack", n] => (readNat n.toList).map .stack
  | [".limit", "locals", n] => (readNat n.toList).map .locals
  | [".end", "method"] => some .ends
  | _ => some .other

/-- The line with some words. -/
def readWords (ws : List String) : Option Line :=
  if ws = [""] then some .other
  else if (ws.head?.bind (·.toList.head?)) = some '.' then readDirective ws
  else (readInstr ws).map .instr

/-- Reads a line. -/
def readLine (line : List Char) : Option Line :=
  readWords (words line)

/-- Reads the lines of a text. -/
def readLines (text : List Char) : Option (List Line) :=
  (text.splitOn '\n').mapM readLine

/-- The methods in lines that are read in their order, given the method that the first line is in. -/
def methodsIn : Option MethodBlock → List Line → Option (List MethodBlock)
  | none, [] => some []
  | none, .other :: rest => methodsIn none rest
  | none, .method header :: rest => methodsIn (some header) rest
  | some b, .stack limit :: rest => methodsIn (some { b with stackLimit := limit }) rest
  | some b, .locals limit :: rest => methodsIn (some { b with localsLimit := limit }) rest
  | some b, .instr i :: rest => methodsIn (some { b with code := b.code ++ [i] }) rest
  | some b, .ends :: rest => (methodsIn none rest).map (b :: ·)
  | _, _ => none

/-- The methods in a text. -/
def readMethods (text : String) : Option (List MethodBlock) :=
  (readLines text.toList).bind (methodsIn none)

/-- Whether a method is read as one without a receiver. -/
def MethodBlock.isStatic (b : MethodBlock) : Bool :=
  (words b.modifiers.toList).contains "static"

/-! ## Names that can be read -/

/-- The full name of a class in which there is no mark that words and descriptors are told apart by. -/
def Unmarked (name : String) : Prop :=
  ∀ c ∈ name.toList, c ∉ [' ', '\n', '(', ';', '[']

/-- A name that has not even the mark in it that full names are told apart by. -/
def Legible (name : String) : Prop :=
  Unmarked name ∧ '/' ∉ name.toList

instance (name : String) : Decidable (Unmarked name) :=
  List.decidableBAll (· ∉ [' ', '\n', '(', ';', '[']) name.toList

instance (name : String) : Decidable (Legible name) :=
  inferInstanceAs (Decidable (_ ∧ _))

/-- A text without blanks and ends of lines. -/
def IsWord (text : String) : Prop :=
  ' ' ∉ text.toList ∧ '\n' ∉ text.toList

instance (text : String) : Decidable (IsWord text) :=
  inferInstanceAs (Decidable (_ ∧ _))

theorem isWord_append {a b : String} : IsWord (a ++ b) ↔ IsWord a ∧ IsWord b := by
  rw [IsWord, String.toList_append, List.mem_append, List.mem_append, not_or, not_or,
    and_and_and_comm]
  rfl

theorem Unmarked.isWord {name : String} (h : Unmarked name) : IsWord name :=
  ⟨fun hmem => h _ hmem (by decide), fun hmem => h _ hmem (by decide)⟩

namespace Descriptor

/-- The classes in a descriptor have names that can be read. -/
def Legible : Descriptor → Prop
  | object name => Unmarked name
  | array element => element.Legible
  | int | boolean | void => True

theorem Legible.delimited {d : Descriptor} (h : d.Legible) : d.Delimited := by
  induction d with
  | object name => exact fun hmem => h _ hmem (by decide)
  | array element ih => exact ih h
  | int | boolean | void => trivial

theorem Legible.isWord {d : Descriptor} (h : d.Legible) : IsWord d.text := by
  induction d with
  | object name => exact isWord_append.mpr ⟨isWord_append.mpr ⟨by decide, Unmarked.isWord h⟩, by decide⟩
  | array element ih => exact isWord_append.mpr ⟨by decide, ih h⟩
  | int | boolean | void => decide

end Descriptor

/-- The classes in the types of a method have names that can be read. -/
structure MethodDescriptor.Legible (d : MethodDescriptor) : Prop where
  params : ∀ p ∈ d.params, p.Legible
  result : d.result.Legible

/-- An instruction whose names can be read, and whose labels have numbers. -/
def Instr.Legible : Instr → Prop
  | .new name => Unmarked name
  | .newArray element => element ≠ .void ∧ element.Legible
  | .getField owner name d | .putField owner name d => Unmarked owner ∧ Jvm.Legible name ∧ d.Legible
  | .invoke _ owner name d => Unmarked owner ∧ Jvm.Legible name ∧ d.Legible
  | .label l | .goto l | .ifLess l | .ifTrue l => ∃ role n, l = .numbered role n
  | .push _ | .load .. | .store .. | .dup | .pop | .op _ | .arrayLength | .arrayLoad _ | .arrayStore _
  | .ret _ => True

/-! ## Numbers and labels are read back -/

theorem readNat_toString (n : Nat) : readNat (toString n).toList = some n := by
  rw [Nat.toString_eq_repr, Nat.toList_repr, readNat, if_pos,
    Nat.ofDigitChars_toDigits (by decide) (by decide)]
  exact ⟨Nat.toDigits_ne_nil, List.all_eq_true.mpr fun c hc =>
    Nat.isDigit_of_mem_toDigits (by decide) (by decide) hc⟩

theorem isDigit_of_toString {n : Nat} {c : Char} (h : c ∈ (toString n).toList) : c.isDigit := by
  rw [Nat.toString_eq_repr, Nat.toList_repr] at h
  exact Nat.isDigit_of_mem_toDigits (by decide) (by decide) h

theorem not_mem_toString {n : Nat} {c : Char} (h : c.isDigit = false) : c ∉ (toString n).toList :=
  fun hmem => Bool.false_ne_true (h.symm.trans (isDigit_of_toString hmem))

theorem isWord_toString (n : Nat) : IsWord (toString n) :=
  ⟨not_mem_toString (by decide), not_mem_toString (by decide)⟩

theorem readInt_toString : ∀ n : Int, readInt (toString n).toList = some n
  | .ofNat n => by
    show readInt (toString n).toList = _
    have hread := readNat_toString n
    unfold readInt
    split
    · rename_i digits hlist
      have hmem : '-' ∈ (toString n).toList := hlist ▸ List.mem_cons_self
      exact absurd hmem (not_mem_toString (by decide))
    · rw [hread]
      rfl
  | .negSucc n => by
    show readInt ("-" ++ toString (n + 1)).toList = _
    rw [String.toList_append, show "-".toList = ['-'] by decide, List.singleton_append, readInt,
      readNat_toString]
    rfl

theorem isWord_toString_int : ∀ n : Int, IsWord (toString n)
  | .ofNat n => isWord_toString n
  | .negSucc n => isWord_append.mpr ⟨by decide, isWord_toString (n + 1)⟩

theorem splitLast_append {mark : Char} {front back : List Char} (h : mark ∉ back) :
    splitLast mark (front ++ mark :: back) = some (front, back) := by
  rw [splitLast, if_pos (List.mem_append_right _ List.mem_cons_self), List.splitOn_append_cons_self,
    List.splitOn_eq_singleton h, List.getLast?_concat, Option.map_some, List.dropLast_concat,
    List.intercalate_splitOn]

theorem readRole_stem (role : LabelRole) : readRole role.stem.toList = some role := by
  cases role <;> decide

theorem readLabel_numbered (role : LabelRole) (n : Nat) :
    readLabel (Label.numbered role n).text = .numbered role n := by
  have htext : (Label.numbered role n).text.toList = role.stem.toList ++ '_' :: (toString n).toList := by
    rw [Label.text, String.toList_append, String.toList_append, List.append_assoc]
    rfl
  have hnumbered : (do
      let (stem, digits) ← splitLast '_' (Label.numbered role n).text.toList
      return Label.numbered (← readRole stem) (← readNat digits)) = some (.numbered role n) := by
    rw [htext, splitLast_append (not_mem_toString (by decide))]
    simp only [Option.bind_eq_bind, Option.bind_some, readRole_stem, readNat_toString]
    rfl
  rw [readLabel, hnumbered, Option.filter_some, if_pos (beq_self_eq_true _), Option.getD_some]

/-- A label that is read has the text, so different texts are never read as one label. -/
theorem readLabel_text (text : String) : (readLabel text).text = text := by
  rw [readLabel]
  simp only
  generalize hnumbered : Option.filter _ _ = numbered
  cases numbered with
  | none => rfl
  | some l => exact eq_of_beq (Option.filter_eq_some_iff.mp hnumbered).2

/-! ## Instructions are read back -/

/-- A line that is read as something. -/
structure LineReads (line : String) (read : Line) : Prop where
  unbroken : '\n' ∉ line.toList
  reads : readLine line.toList = some read

section Words

variable {m v w : String} {read : Line}

theorem words_indent (text : String) : words ("    " ++ text).toList = words text.toList := by
  rw [String.toList_append, show "    ".toList = [' ', ' ', ' ', ' '] by decide]
  rfl

theorem splitOn_word (hw : IsWord w) : (w.toList.splitOn ' ').map String.ofList = [w] := by
  rw [List.splitOn_eq_singleton hw.1, List.map_singleton, String.ofList_toList]

theorem dropWhile_word (hw : IsWord w) (hne : w ≠ "") (rest : List Char) :
    (w.toList ++ rest).dropWhile (· == ' ') = w.toList ++ rest := by
  cases hlist : w.toList with
  | nil => exact absurd (String.toList_inj.mp hlist) hne
  | cons c more =>
    refine List.dropWhile_cons_of_neg fun hc => hw.1 ?_
    rw [hlist, ← eq_of_beq hc]
    exact List.mem_cons_self

theorem words_single (hw : IsWord w) (hne : w ≠ "") : words w.toList = [w] := by
  have hdrop := dropWhile_word hw hne []
  rw [List.append_nil] at hdrop
  rw [words, hdrop, splitOn_word hw]

theorem words_cons (hw : IsWord w) (hne : w ≠ "") (rest : List Char) :
    words (w.toList ++ ' ' :: rest) = w :: (rest.splitOn ' ').map String.ofList := by
  rw [words, dropWhile_word hw hne, List.splitOn_append_cons_self_of_not_mem hw.1, List.map_cons,
    String.ofList_toList]

theorem unbroken_append {a b : String} :
    '\n' ∉ (a ++ b).toList ↔ '\n' ∉ a.toList ∧ '\n' ∉ b.toList := by
  rw [String.toList_append, List.mem_append, not_or]

theorem reads_single (hw : IsWord w) (hne : w ≠ "") (hread : readWords [w] = some read) :
    LineReads ("    " ++ w) read where
  unbroken := unbroken_append.mpr ⟨by decide, hw.2⟩
  reads := by rw [readLine, words_indent, words_single hw hne, hread]

theorem reads_pair (hm : IsWord m) (hne : m ≠ "") (hw : IsWord w)
    (hread : readWords [m, w] = some read) :
    LineReads ("    " ++ (m ++ " " ++ w)) read where
  unbroken := unbroken_append.mpr ⟨by decide, unbroken_append.mpr
    ⟨unbroken_append.mpr ⟨hm.2, by decide⟩, hw.2⟩⟩
  reads := by
    rw [readLine, words_indent, String.toList_append, String.toList_append, List.append_assoc,
      show " ".toList = [' '] by decide, List.singleton_append, words_cons hm hne, splitOn_word hw,
      hread]

theorem reads_triple (hm : IsWord m) (hne : m ≠ "") (hv : IsWord v) (hw : IsWord w)
    (hread : readWords [m, v, w] = some read) :
    LineReads ("    " ++ (m ++ " " ++ (v ++ " " ++ w))) read where
  unbroken := unbroken_append.mpr ⟨by decide, unbroken_append.mpr
    ⟨unbroken_append.mpr ⟨hm.2, by decide⟩, unbroken_append.mpr
      ⟨unbroken_append.mpr ⟨hv.2, by decide⟩, hw.2⟩⟩⟩
  reads := by
    rw [readLine, words_indent, String.toList_append, String.toList_append, String.toList_append,
      String.toList_append, List.append_assoc, List.append_assoc, show " ".toList = [' '] by decide,
      List.singleton_append, List.singleton_append, words_cons hm hne,
      List.splitOn_append_cons_self_of_not_mem hv.1, List.map_cons, String.ofList_toList,
      splitOn_word hw, hread]

end Words

theorem push_reads (value : Int32) : LineReads ("    " ++ pushText value) (.instr (.push value)) := by
  have hvalue : Int32.ofInt value.toInt = value := Int32.ofInt_toInt value
  have hlow := Int32.le_toInt value
  have hhigh := Int32.toInt_lt value
  rw [pushText]
  revert hvalue
  generalize value.toInt = n at *
  rintro rfl
  split
  · subst n
    exact reads_single (by decide) (by decide) rfl
  · split
    · rename_i h
      obtain rfl | rfl | rfl | rfl | rfl | rfl : n = 0 ∨ n = 1 ∨ n = 2 ∨ n = 3 ∨ n = 4 ∨ n = 5 := by
        omega
      all_goals exact reads_single (by decide) (by decide) rfl
    · have hpush : ∀ {least greatest : Int}, least ≤ n ∧ n ≤ greatest →
          readPush least greatest (toString n) = some (.push (.ofInt n)) := by
        intro least greatest h
        rw [readPush, readInt_toString]
        exact if_pos h
      split
      · rename_i h
        refine reads_pair (m := "bipush") (by decide) (by decide) (isWord_toString_int n) ?_
        exact congrArg (Option.map Line.instr) (hpush h)
      · split
        · rename_i h
          refine reads_pair (m := "sipush") (by decide) (by decide) (isWord_toString_int n) ?_
          exact congrArg (Option.map Line.instr) (hpush h)
        · refine reads_pair (m := "ldc") (by decide) (by decide) (isWord_toString_int n) ?_
          exact congrArg (Option.map Line.instr) (hpush ⟨by omega, by omega⟩)

/-- The load or store of a register, whose instructions have the names of the ones that are numbered
with the number behind them. -/
theorem register_reads {m : String} {access : Nat → Instr} (hm : IsWord m) (hne : m ≠ "")
    (hshort : ∀ r < 4, readWords [m ++ "_" ++ toString r] = some (.instr (access r)))
    (hlong : ∀ operand, readWords [m, operand] = ((readNat operand.toList).map access).map .instr)
    (r : Nat) :
    LineReads ("    " ++ (m ++ registerText r)) (.instr (access r)) := by
  have hjoin : ∀ mark : String, m ++ (mark ++ toString r) = m ++ mark ++ toString r :=
    fun _ => String.append_assoc.symm
  rw [registerText, hjoin]
  split
  · rename_i h
    refine reads_single ?_ ?_ (hshort r h)
    · exact isWord_append.mpr ⟨isWord_append.mpr ⟨hm, by decide⟩, isWord_toString r⟩
    · simp [String.append_eq_empty_iff]
  · refine reads_pair hm hne (isWord_toString r) ?_
    rw [hlong, readNat_toString]
    rfl

theorem readMethodName_text {name : String} {d : MethodDescriptor} (hname : '(' ∉ name.toList)
    (hd : d.Legible) : readMethodName (name ++ d.text).toList = some (name.toList, d) := by
  have hread := MethodDescriptor.read_iff.mpr (MethodDescriptor.text_spelled
    (fun p hp => (hd.params p hp).delimited) hd.result.delimited)
  have htext : d.text.toList = '(' :: (d.text.toList.drop 1) := by
    simp only [MethodDescriptor.text, String.toList_append, List.append_assoc,
      show "(".toList = ['('] by decide]
    rfl
  have hpasses : ∀ c ∈ name.toList, (c != '(') = true := fun c hc =>
    bne_iff_ne.mpr fun heq => hname (heq ▸ hc)
  have hstops : ¬ (fun c => c != '(') '(' = true := by decide
  rw [String.toList_append, readMethodName, List.dropWhile_append_of_pos hpasses,
    List.takeWhile_append_of_pos hpasses, htext, List.dropWhile_cons_of_neg (p := (· != '(')) hstops,
    List.takeWhile_cons_of_neg (p := (· != '(')) hstops, ← htext, hread, List.append_nil]
  rfl

theorem readType_text {d : Descriptor} (h : d.Legible) : readType d.text.toList = some (d, []) :=
  readType_iff.mpr ⟨_, (List.append_nil _).symm, Descriptor.text_spelled h.delimited⟩

theorem splitLast_member {owner name : String} (h : '/' ∉ name.toList) :
    splitLast '/' (owner ++ "/" ++ name).toList = some (owner.toList, name.toList) := by
  rw [String.toList_append, String.toList_append, List.append_assoc, show "/".toList = ['/'] by decide]
  exact splitLast_append h

theorem field_reads {m owner name : String} {d : Descriptor}
    {access : String → String → Descriptor → Instr} (hm : IsWord m) (hne : m ≠ "")
    (hread : ∀ member descriptor, readWords [m, member, descriptor] =
      (readField access member descriptor).map .instr) (howner : Unmarked owner)
    (hname : Jvm.Legible name) (hd : d.Legible) :
    LineReads ("    " ++ (m ++ " " ++ (owner ++ "/" ++ name ++ " " ++ d.text)))
      (.instr (access owner name d)) := by
  refine reads_triple hm hne (isWord_append.mpr ⟨isWord_append.mpr ⟨howner.isWord, by decide⟩,
    hname.1.isWord⟩) hd.isWord ?_
  rw [hread, readField, splitLast_member hname.2]
  simp only [Option.bind_eq_bind, Option.bind_some, readType_text hd, String.ofList_toList,
    Option.map_some]

theorem MethodDescriptor.Legible.isWord {d : MethodDescriptor} (h : d.Legible) : IsWord d.text := by
  have hjoin : ∀ ds : List Descriptor, (∀ p ∈ ds, p.Legible) →
      IsWord (String.join (ds.map (·.text))) := by
    intro ds
    induction ds with
    | nil => exact fun _ => by decide
    | cons p rest ih =>
      intro hall
      rw [List.forall_mem_cons] at hall
      rw [List.map_cons, String.join_cons]
      exact isWord_append.mpr ⟨hall.1.isWord, ih hall.2⟩
  rw [text]
  exact isWord_append.mpr ⟨isWord_append.mpr ⟨isWord_append.mpr ⟨by decide, hjoin _ h.params⟩,
    by decide⟩, h.result.isWord⟩

theorem invoke_reads {invocation : Invocation} {owner name : String} {d : MethodDescriptor}
    (howner : Unmarked owner) (hname : Jvm.Legible name) (hd : d.Legible) :
    LineReads ("    " ++ (invocation.mnemonic ++ " " ++ (owner ++ "/" ++ name ++ d.text)))
      (.instr (.invoke invocation owner name d)) := by
  have hmember : '(' ∉ (owner ++ "/" ++ name).toList := by
    rw [String.toList_append, String.toList_append, List.mem_append, List.mem_append]
    rintro ((h | h) | h)
    · exact howner _ h (by decide)
    · exact absurd h (by decide)
    · exact hname.1 _ h (by decide)
  have hread : readInvoke invocation (owner ++ "/" ++ name ++ d.text) =
      some (.invoke invocation owner name d) := by
    rw [readInvoke, readMethodName_text hmember hd]
    simp only [Option.bind_eq_bind, Option.bind_some, splitLast_member hname.2, String.ofList_toList]
    rfl
  refine reads_pair ?_ ?_ (isWord_append.mpr ⟨isWord_append.mpr
    ⟨isWord_append.mpr ⟨howner.isWord, by decide⟩, hname.1.isWord⟩, hd.isWord⟩) ?_
  · cases invocation <;> decide
  · cases invocation <;> decide
  · cases invocation <;> exact congrArg (Option.map Line.instr) hread

theorem newArray_reads {element : Descriptor} (hvoid : element ≠ .void) (h : element.Legible) :
    LineReads ("    " ++ newArrayText element) (.instr (.newArray element)) := by
  cases element with
  | void => exact absurd rfl hvoid
  | int => exact reads_pair (m := "newarray") (w := "int") (by decide) (by decide) (by decide) rfl
  | boolean =>
    exact reads_pair (m := "newarray") (w := "boolean") (by decide) (by decide) (by decide) rfl
  | object name =>
    refine reads_pair (m := "anewarray") (by decide) (by decide) (Unmarked.isWord h) ?_
    have hread : readComponent name = some (.object name) := by
      unfold readComponent
      split
      · rename_i rest hlist
        exact absurd (h '[' (hlist ▸ List.mem_cons_self)) (by decide)
      · rfl
    exact congrArg (fun read => (read.map Instr.newArray).map Line.instr) hread
  | array element =>
    refine reads_pair (m := "anewarray") (by decide) (by decide) h.isWord ?_
    have hread : readComponent (Descriptor.array element).text = some (.array element) := by
      have htext : (Descriptor.array element).text.toList = '[' :: element.text.toList := by
        rw [Descriptor.text, String.toList_append, show "[".toList = ['['] by decide]
        rfl
      have htype := readType_text h
      rw [htext] at htype
      rw [readComponent, htext]
      simp only [htype]
    exact congrArg (fun read => (read.map Instr.newArray).map Line.instr) hread

theorem isWord_label (role : LabelRole) (n : Nat) : IsWord (Label.numbered role n).text :=
  isWord_append.mpr ⟨isWord_append.mpr ⟨by cases role <;> decide, by decide⟩, isWord_toString n⟩

theorem label_reads (role : LabelRole) (n : Nat) : LineReads ((Label.numbered role n).text ++ ":")
    (.instr (.label (.numbered role n))) := by
  have hword : IsWord ((Label.numbered role n).text ++ ":") :=
    isWord_append.mpr ⟨isWord_label role n, by decide⟩
  have hne : (Label.numbered role n).text ++ ":" ≠ "" := by
    simp [String.append_eq_empty_iff]
  have hlist : ((Label.numbered role n).text ++ ":").toList =
      (Label.numbered role n).text.toList ++ [':'] := by
    rw [String.toList_append, show ":".toList = [':'] by decide]
  have hhead : ((Label.numbered role n).text ++ ":").toList.head? ≠ some '.' := by
    rw [Label.text, String.toList_append, String.toList_append, String.toList_append,
      List.append_assoc, List.append_assoc]
    cases role <;> simp [LabelRole.stem]
  refine ⟨hword.2, ?_⟩
  rw [readLine, words_single hword hne, readWords, if_neg fun h => hne (List.singleton_inj.mp h),
    List.head?_cons, Option.bind_some, if_neg hhead, readInstr,
    if_pos (by rw [hlist, List.getLast?_concat]), hlist,
    List.dropLast_concat, String.ofList_toList, readLabel_numbered]
  rfl

/-- The line of an instruction is read as the instruction. -/
theorem Instr.reads {i : Instr} (h : i.Legible) :
    ∃ line, i.line = line ++ "\n" ∧ LineReads line (.instr i) := by
  have hregister : ∀ r < 4, r = 0 ∨ r = 1 ∨ r = 2 ∨ r = 3 := by omega
  cases i with
  | label l =>
    obtain ⟨role, n, rfl⟩ := h
    refine ⟨_, ?_, label_reads role n⟩
    rw [String.append_assoc, show ":" ++ "\n" = ":\n" by decide]
    rfl
  | push value => exact ⟨_, rfl, push_reads value⟩
  | load kind r | store kind r =>
    refine ⟨_, rfl, ?_⟩
    cases kind
    all_goals
      refine register_reads (by decide) (by decide) (fun r hr => ?_) (fun _ => rfl) r
      obtain rfl | rfl | rfl | rfl := hregister r hr <;> rfl
  | new name =>
    exact ⟨_, rfl, reads_pair (m := "new") (by decide) (by decide) (Unmarked.isWord h) rfl⟩
  | dup | pop | arrayLength => exact ⟨_, rfl, reads_single (by decide) (by decide) rfl⟩
  | op o => exact ⟨_, rfl, by cases o <;> exact reads_single (by decide) (by decide) rfl⟩
  | newArray element => exact ⟨_, rfl, newArray_reads h.1 h.2⟩
  | arrayLoad kind | arrayStore kind =>
    exact ⟨_, rfl, by cases kind <;> exact reads_single (by decide) (by decide) rfl⟩
  | getField owner name d =>
    refine ⟨_, ?_, field_reads (m := "getfield") (by decide) (by decide) (fun _ _ => rfl) h.1 h.2.1 h.2.2⟩
    simp only [line, text, String.append_assoc]
    rfl
  | putField owner name d =>
    refine ⟨_, ?_, field_reads (m := "putfield") (by decide) (by decide) (fun _ _ => rfl) h.1 h.2.1 h.2.2⟩
    simp only [line, text, String.append_assoc]
    rfl
  | invoke invocation owner name d =>
    refine ⟨_, ?_, invoke_reads h.1 h.2.1 h.2.2⟩
    simp only [line, text, String.append_assoc]
  | goto l =>
    obtain ⟨role, n, rfl⟩ := h
    exact ⟨_, rfl, reads_pair (m := "goto") (by decide) (by decide) (isWord_label role n)
      (congrArg (fun l => some (Line.instr (.goto l))) (readLabel_numbered role n))⟩
  | ifLess l =>
    obtain ⟨role, n, rfl⟩ := h
    exact ⟨_, rfl, reads_pair (m := "if_icmplt") (by decide) (by decide) (isWord_label role n)
      (congrArg (fun l => some (Line.instr (.ifLess l))) (readLabel_numbered role n))⟩
  | ifTrue l =>
    obtain ⟨role, n, rfl⟩ := h
    exact ⟨_, rfl, reads_pair (m := "ifne") (by decide) (by decide) (isWord_label role n)
      (congrArg (fun l => some (Line.instr (.ifTrue l))) (readLabel_numbered role n))⟩
  | ret kind =>
    refine ⟨_, rfl, ?_⟩
    cases kind with
    | none => exact reads_single (by decide) (by decide) rfl
    | some kind => cases kind <;> exact reads_single (by decide) (by decide) rfl

end MiniJava.Jvm
