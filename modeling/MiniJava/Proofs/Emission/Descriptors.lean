import MiniJava.Jvm.Descriptor

/-!
# Descriptors are read back

The text of a method descriptor has nothing between its types, so a reader has to see from a type
alone where it ends. The grammar of descriptors is stated on its own, as what may be written for
which types, and a reader is shown to take exactly the texts of this grammar. What is written for a
method is in it, and is read as the types of the method with all classes under their full names.
-/

namespace MiniJava.Jvm

/-! ## The grammar -/

/-- What may be written for a type: a letter, a name between its marks, or a bracket and what may be
written for the elements. -/
inductive Descriptor.Spelled : Descriptor → List Char → Prop
  | int : Spelled .int ['I']
  | boolean : Spelled .boolean ['Z']
  | void : Spelled .void ['V']
  | object {name : String} (h : ';' ∉ name.toList) :
    Spelled (.object name) ('L' :: (name.toList ++ [';']))
  | array {element : Descriptor} {text : List Char} (h : Spelled element text) :
    Spelled (.array element) ('[' :: text)

/-- What may be written for types, one behind the other. -/
inductive SpelledAll : List Descriptor → List Char → Prop
  | nil : SpelledAll [] []
  | cons {d : Descriptor} {ds : List Descriptor} {front back : List Char} (hd : d.Spelled front)
    (hds : SpelledAll ds back) : SpelledAll (d :: ds) (front ++ back)

/-- What may be written for a method: its parameters in parentheses, then its result. -/
inductive MethodDescriptor.Spelled : MethodDescriptor → List Char → Prop
  | method {params : List Descriptor} {result : Descriptor} {front back : List Char}
    (hparams : SpelledAll params front) (hresult : result.Spelled back) :
    Spelled { params, result } ('(' :: (front ++ ')' :: back))

/-! ## Reading -/

/-- The characters in front of the first semicolon, and what is behind it. -/
def readName : List Char → Option (List Char × List Char)
  | [] => none
  | c :: rest =>
    if c = ';' then some ([], rest) else (readName rest).map fun (name, rest) => (c :: name, rest)

/-- The type that a text begins with, and what is behind it. -/
def readType : List Char → Option (Descriptor × List Char)
  | 'I' :: rest => some (.int, rest)
  | 'Z' :: rest => some (.boolean, rest)
  | 'V' :: rest => some (.void, rest)
  | 'L' :: rest => (readName rest).map fun (name, rest) => (.object (String.ofList name), rest)
  | '[' :: rest => (readType rest).map fun (element, rest) => (.array element, rest)
  | _ => none

theorem readName_iff {text name rest : List Char} :
    readName text = some (name, rest) ↔ ';' ∉ name ∧ text = name ++ ';' :: rest := by
  induction text generalizing name with
  | nil => simp [readName]
  | cons c more ih =>
    rw [readName]
    by_cases hc : c = ';'
    · subst hc
      rw [if_pos rfl]
      constructor
      · rintro ⟨⟩
        exact ⟨List.not_mem_nil, rfl⟩
      · rintro ⟨hname, htext⟩
        -- a name that is not empty would begin with the semicolon
        cases name with
        | nil =>
          cases htext
          rfl
        | cons first others =>
          cases htext
          exact absurd List.mem_cons_self hname
    · rw [if_neg hc]
      constructor
      · intro h
        obtain ⟨⟨others, rest'⟩, hmore, heq⟩ := Option.map_eq_some_iff.mp h
        cases heq
        obtain ⟨hothers, rfl⟩ := ih.mp hmore
        exact ⟨List.not_mem_cons_of_ne_of_not_mem (Ne.symm hc) hothers, rfl⟩
      · rintro ⟨hname, htext⟩
        cases name with
        | nil =>
          cases htext
          exact absurd rfl hc
        | cons first others =>
          cases htext
          rw [ih.mpr ⟨List.not_mem_of_not_mem_cons hname, rfl⟩]
          rfl

/-- A type is read off the front of a text just if it is spelled there: nothing else may be, and no
character behind it is looked at. -/
theorem readType_iff {text rest : List Char} {d : Descriptor} :
    readType text = some (d, rest) ↔ ∃ front, text = front ++ rest ∧ d.Spelled front := by
  constructor
  · intro h
    fun_induction readType text generalizing d with
    | case1 | case2 | case3 =>
      cases h
      exact ⟨[_], rfl, by constructor⟩
    | case4 more =>
      obtain ⟨⟨name, rest'⟩, hread, heq⟩ := Option.map_eq_some_iff.mp h
      cases heq
      obtain ⟨hname, rfl⟩ := readName_iff.mp hread
      refine ⟨'L' :: (name ++ [';']), by simp, ?_⟩
      rw [← String.toList_ofList (l := name)] at hname ⊢
      rw [String.ofList_toList]
      exact .object hname
    | case5 more ih =>
      obtain ⟨⟨element, rest'⟩, helement, heq⟩ := Option.map_eq_some_iff.mp h
      cases heq
      obtain ⟨front, rfl, hspelled⟩ := ih helement
      exact ⟨'[' :: front, rfl, .array hspelled⟩
    | case6 => cases h
  · rintro ⟨front, rfl, h⟩
    induction h with
    | int | boolean | void => rfl
    | @object name h =>
      have hname : readName (name.toList ++ [';'] ++ rest) = some (name.toList, rest) :=
        readName_iff.mpr ⟨h, by simp⟩
      rw [List.cons_append, readType, hname]
      exact congrArg (fun name => some (Descriptor.object name, rest)) String.ofList_toList
    | array h ih => rw [List.cons_append, readType, ih, Option.map_some]

theorem readType_shorter {text rest : List Char} {d : Descriptor}
    (h : readType text = some (d, rest)) : rest.length < text.length := by
  obtain ⟨front, rfl, hspelled⟩ := readType_iff.mp h
  cases hspelled <;> simp only [List.length_append, List.length_cons] <;> omega

/-- The types that a text begins with, as many as there are, and what is behind them. -/
def readTypes (text : List Char) : List Descriptor × List Char :=
  match h : readType text with
  | none => ([], text)
  | some (d, rest) =>
    have := readType_shorter h
    (d :: (readTypes rest).1, (readTypes rest).2)
termination_by text.length

/-- The types of a method that a text stands for as a whole. -/
def MethodDescriptor.read : List Char → Option MethodDescriptor
  | '(' :: text =>
    match readTypes text with
    | (params, ')' :: rest) =>
      match readType rest with
      | some (result, []) => some { params, result }
      | _ => none
    | _ => none
  | _ => none

theorem readTypes_none {text : List Char} (h : readType text = none) :
    readTypes text = ([], text) := by
  rw [readTypes]
  split
  · rfl
  · rename_i heq
    rw [h] at heq
    cases heq

theorem readTypes_some {text rest : List Char} {d : Descriptor}
    (h : readType text = some (d, rest)) :
    readTypes text = (d :: (readTypes rest).1, (readTypes rest).2) := by
  rw [readTypes]
  split
  · rename_i heq
    rw [h] at heq
    cases heq
  · rename_i heq
    rw [h] at heq
    cases heq
    rfl

theorem readTypes_spelled (text : List Char) :
    ∃ front, text = front ++ (readTypes text).2 ∧ SpelledAll (readTypes text).1 front := by
  fun_induction readTypes text with
  | case1 => exact ⟨[], rfl, .nil⟩
  | case2 text d rest hd _ ih =>
    obtain ⟨front, rfl, hfront⟩ := readType_iff.mp hd
    obtain ⟨back, hrest, hback⟩ := ih
    refine ⟨front ++ back, ?_, .cons hfront hback⟩
    rw [List.append_assoc, ← hrest]

/-- Types are read up to the parenthesis behind them, with which no type begins. -/
theorem readTypes_of_spelled {ds : List Descriptor} {front : List Char} (h : SpelledAll ds front)
    (rest : List Char) : readTypes (front ++ ')' :: rest) = (ds, ')' :: rest) := by
  induction h with
  | nil => exact readTypes_none rfl
  | @cons d ds front back hd _ ih =>
    have hread : readType (front ++ (back ++ ')' :: rest)) = some (d, back ++ ')' :: rest) :=
      readType_iff.mpr ⟨front, rfl, hd⟩
    rw [List.append_assoc, readTypes_some hread, ih]

/-- The reader takes exactly the texts of the grammar, so a text stands for one method at most. -/
theorem MethodDescriptor.read_iff {text : List Char} {d : MethodDescriptor} :
    read text = some d ↔ d.Spelled text := by
  constructor
  · intro h
    unfold read at h
    split at h
    · rename_i text
      split at h
      · rename_i params rest hparams
        split at h
        · rename_i result hresult
          cases h
          obtain ⟨front, htext, hfront⟩ := readTypes_spelled text
          rw [hparams] at htext hfront
          obtain ⟨back, rfl, hback⟩ := readType_iff.mp hresult
          rw [List.append_nil] at htext
          subst htext
          exact .method hfront hback
        · cases h
      · cases h
    · cases h
  · rintro ⟨hparams, hresult⟩
    have hread := readType_iff.mpr ⟨_, (List.append_nil _).symm, hresult⟩
    rw [read, readTypes_of_spelled hparams]
    simp only [hread]

/-! ## Written descriptors -/

/-- The names in a descriptor do not hold the mark that ends them. -/
def Descriptor.Delimited : Descriptor → Prop
  | .object name => ';' ∉ name.toList
  | .array element => element.Delimited
  | .int | .boolean | .void => True

theorem Descriptor.text_spelled {d : Descriptor} (h : d.Delimited) : d.Spelled d.text.toList := by
  induction d with
  | int => exact .int
  | boolean => exact .boolean
  | void => exact .void
  | object name =>
    rw [text, String.toList_append, String.toList_append, List.append_assoc]
    exact .object h
  | array element ih =>
    rw [text, String.toList_append]
    exact .array (ih h)

theorem text_spelledAll {ds : List Descriptor} (h : ∀ d ∈ ds, d.Delimited) :
    SpelledAll ds (String.join (ds.map (·.text))).toList := by
  induction ds with
  | nil => exact .nil
  | cons d rest ih =>
    rw [List.forall_mem_cons] at h
    rw [List.map_cons, String.join_cons, String.toList_append]
    exact .cons (Descriptor.text_spelled h.1) (ih h.2)

theorem MethodDescriptor.text_spelled {d : MethodDescriptor} (hparams : ∀ p ∈ d.params, p.Delimited)
    (hresult : d.result.Delimited) : d.Spelled d.text.toList := by
  simp only [text, String.toList_append, List.append_assoc]
  exact .method (text_spelledAll hparams) (Descriptor.text_spelled hresult)

/-! ## The types of a program -/

/-- The type that a descriptor stands for. -/
def Descriptor.ty : Descriptor → Ty
  | .int => .int
  | .boolean => .boolean
  | .void => .void
  | .object name => .object name
  | .array element => .array element.ty

/-- A type with every class under its full name, the class of texts among them. -/
def Resolver.inFull (r : Resolver) : Ty → Ty
  | .string => .object stringClass
  | .object name => .object (r.internalName name)
  | .array element => .array (r.inFull element)
  | .int => .int
  | .boolean => .boolean
  | .void => .void

variable {r : Resolver}

theorem descriptor_ty (ty : Ty) : (r.descriptor ty).ty = r.inFull ty := by
  induction ty with
  | array element ih => exact congrArg Ty.array ih
  | int | boolean | string | void | object => rfl

theorem internalName_delimited (hclass : ';' ∉ r.className.toList)
    (himports : ∀ i ∈ r.imports, ';' ∉ i.toList) (name : String) :
    ';' ∉ (r.internalName name).toList := by
  rw [Resolver.internalName]
  split
  · exact hclass
  · rw [Resolver.imported?]
    cases hfind : r.imports.find? (DottedName.endsWith · name) with
    | none => exact hclass
    | some i =>
      -- slashes come in for points, everything else is in the import
      intro hmem
      simp only [Option.map_some, Option.getD_some, DottedName.slashed, String.toList_ofList,
        List.mem_map] at hmem
      obtain ⟨c, hc, hslashed⟩ := hmem
      split at hslashed
      · exact absurd hslashed (by decide)
      · exact himports i (List.mem_of_find?_eq_some hfind) (hslashed ▸ hc)

theorem descriptor_delimited (hclass : ';' ∉ r.className.toList)
    (himports : ∀ i ∈ r.imports, ';' ∉ i.toList) (ty : Ty) : (r.descriptor ty).Delimited := by
  induction ty with
  | object name => exact internalName_delimited hclass himports name
  | string => exact (by decide : ';' ∉ stringClass.toList)
  | array element ih => exact ih
  | int | boolean | void => trivial

/-- Method descriptors can be read back. If neither the class nor an import has a semicolon in its
name, the whole text of a descriptor is read, in one way only, as the parameters in their order and
the result, each the type it was made of with all classes under their full names. Void may stand
anywhere in the types, and the names in them may be any. -/
theorem methodDescriptor_readBack (hclass : ';' ∉ r.className.toList)
    (himports : ∀ i ∈ r.imports, ';' ∉ i.toList) (params : List Ty) (result : Ty) :
    ∃ d, MethodDescriptor.read (r.methodDescriptor params result).text.toList = some d ∧
      (∀ d', d'.Spelled (r.methodDescriptor params result).text.toList ↔ d' = d) ∧
      d.params.map (·.ty) = params.map r.inFull ∧ d.result.ty = r.inFull result := by
  have hdelimited := descriptor_delimited hclass himports
  have hspelled : (r.methodDescriptor params result).Spelled
      (r.methodDescriptor params result).text.toList :=
    MethodDescriptor.text_spelled (List.forall_mem_map.mpr fun ty _ => hdelimited ty)
      (hdelimited result)
  have hread := MethodDescriptor.read_iff.mpr hspelled
  refine ⟨_, hread, fun d' => ⟨fun h => ?_, fun h => h ▸ hspelled⟩, ?_, descriptor_ty result⟩
  · exact Option.some.inj ((MethodDescriptor.read_iff.mpr h).symm.trans hread)
  · rw [Resolver.methodDescriptor, List.map_map]
    exact List.map_congr_left fun ty _ => descriptor_ty ty

/-- Names may have the letters of types in them, and the marks of parameters. -/
theorem methodDescriptor_readBack_letters :
    let r : Resolver := { className := "I[L)V", imports := ["lib.Z(", "io"] }
    ';' ∉ r.className.toList ∧ (∀ i ∈ r.imports, ';' ∉ i.toList) ∧
      (r.methodDescriptor [.int, .array (.array (.object "Z(")), .object "I[L)V", .string] .void).text =
        "(I[[Llib/Z(;LI[L)V;Ljava/lang/String;)V" ∧
      ∃ d, MethodDescriptor.read "(I[[Llib/Z(;LI[L)V;Ljava/lang/String;)V".toList = some d ∧
        d.params.map (·.ty) = [.int, .array (.array (.object "lib/Z(")), .object "I[L)V",
          .object "java/lang/String"] ∧
        d.result.ty = .void := by
  intro r
  have hclass : ';' ∉ r.className.toList := by decide
  have himports : ∀ i ∈ r.imports, ';' ∉ i.toList := by decide
  have htext : (r.methodDescriptor [.int, .array (.array (.object "Z(")), .object "I[L)V", .string]
      .void).text = "(I[[Llib/Z(;LI[L)V;Ljava/lang/String;)V" := by decide
  obtain ⟨d, hread, _, hparams, hresult⟩ := methodDescriptor_readBack hclass himports
    [.int, .array (.array (.object "Z(")), .object "I[L)V", .string] .void
  rw [htext] at hread
  exact ⟨hclass, himports, htext, d, hread, hparams, hresult⟩

end MiniJava.Jvm
