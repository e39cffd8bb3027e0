import Mathlib.Data.List.Find
import MiniJava.Jvm.Descriptor
import MiniJava.Proofs.DottedNames
import MiniJava.SymbolTable

/-!
# The two ways to look a name up in the imports

The table of symbols compares a name with the last segment of every import. Emission asks whether
the import ends with the name. For a name without points both find the same one: the first that makes
the name visible. Its full name is its dotted one with slashes, and a name that no import makes
visible stands for the class itself.
-/

namespace MiniJava

namespace Import

/-- No segment of an import holds a point. -/
def PointFree (i : Import) : Prop :=
  ∀ s ∈ i.path, '.' ∉ s.toList

instance (i : Import) : Decidable i.PointFree :=
  inferInstanceAs (Decidable (∀ s ∈ i.path, '.' ∉ s.toList))

theorem dotted_ofDotted (name : String) : (ofDotted name).dotted = name :=
  DottedName.join_segments name

theorem ofDotted_dotted {i : Import} (h : i.PointFree) (hpath : i.path ≠ []) :
    ofDotted i.dotted = i := by
  rw [ofDotted, dotted, DottedName.segments_join h hpath]

theorem lastSegment_dotted {i : Import} (h : i.PointFree) :
    DottedName.lastSegment i.dotted = i.simpleName :=
  DottedName.lastSegment_join h

end Import

section Lookup

variable {imports : List Import} {symbols : SymbolTable} {r : Jvm.Resolver} {name : String}

/-- A test on dotted names that picks the imports of a simple name finds the first of these. -/
theorem find?_dotted {found : String → Bool}
    (h : ∀ i ∈ imports, found i.dotted ↔ i.simpleName = name) :
    (imports.map (·.dotted)).find? found
      = (imports.find? (·.simpleName == name)).map (·.dotted) := by
  rw [List.find?_map]
  refine congrArg _ (List.find?_congr fun i hi => ?_)
  rw [Function.comp_apply, Bool.eq_iff_iff, beq_iff_eq]
  exact h i hi

theorem SymbolTable.importFor?_eq (h : ∀ i ∈ imports, i.PointFree)
    (hsymbols : symbols.imports = imports.map (·.dotted)) (name : String) :
    symbols.importFor? name = (imports.find? (·.simpleName == name)).map (·.dotted) := by
  rw [SymbolTable.importFor?, hsymbols]
  refine find?_dotted fun i hi => ?_
  rw [beq_iff_eq, Import.lastSegment_dotted (h i hi)]

theorem Jvm.Resolver.imported?_eq (h : ∀ i ∈ imports, i.PointFree)
    (hr : r.imports = imports.map (·.dotted)) (hname : '.' ∉ name.toList) :
    r.imported? name
      = (imports.find? (·.simpleName == name)).map (DottedName.slashed ·.dotted) := by
  have hfind : (imports.map (·.dotted)).find? (DottedName.endsWith · name)
      = (imports.find? (·.simpleName == name)).map (·.dotted) := by
    refine find?_dotted fun i hi => ?_
    rw [DottedName.endsWith_iff hname, Import.lastSegment_dotted (h i hi)]
  rw [Jvm.Resolver.imported?, hr, hfind, Option.map_map]
  rfl

/-- What the table of symbols and emission make of a name, both told by the imports of its simple
name. -/
structure ResolvedAlike (imports : List Import) (symbols : SymbolTable) (r : Jvm.Resolver)
    (name : String) : Prop where
  visible : symbols.isImport name ↔ ∃ i ∈ imports, i.simpleName = name
  first : ∀ ⦃i⦄, imports.find? (·.simpleName == name) = some i →
    symbols.importFor? name = some i.dotted
  full : ∀ ⦃i⦄, imports.find? (·.simpleName == name) = some i → name ≠ "this" →
    name ≠ r.className → r.internalName name = DottedName.slashed i.dotted
  own : name = "this" ∨ name = r.className ∨ (∀ i ∈ imports, i.simpleName ≠ name) →
    r.internalName name = r.className

/-- For a name without points the table of symbols and emission agree: a name is visible just if it
is the simple name of an import, both take the first such import, and emission writes it with
slashes; all other names, and the receiver and the class itself, stand for the class. Dotted names
and imports determine each other. -/
theorem imports_resolved_alike :
    (∀ (imports : List Import) (symbols : SymbolTable) (r : Jvm.Resolver),
      (∀ i ∈ imports, i.PointFree) → symbols.imports = imports.map (·.dotted) →
      r.imports = imports.map (·.dotted) → ∀ name : String, '.' ∉ name.toList →
      ResolvedAlike imports symbols r name) ∧
    (∀ name, (Import.ofDotted name).dotted = name) ∧
    (∀ i : Import, i.path ≠ [] → i.PointFree → Import.ofDotted i.dotted = i) := by
  refine ⟨fun imports symbols r h hsymbols hr name hname => ?_, Import.dotted_ofDotted,
    fun i hpath h => Import.ofDotted_dotted h hpath⟩
  have htable := SymbolTable.importFor?_eq h hsymbols name
  have himported := Jvm.Resolver.imported?_eq h hr hname
  refine ⟨?visible, fun i hi => ?first, fun i hi hthis hclass => ?full, fun hown => ?own⟩
  case visible =>
    rw [SymbolTable.isImport, htable, Option.isSome_map, List.find?_isSome]
    simp only [beq_iff_eq]
  case first => rw [htable, hi, Option.map_some]
  case full =>
    rw [Jvm.Resolver.internalName, if_neg (not_or.mpr ⟨hthis, hclass⟩), himported, hi,
      Option.map_some, Option.getD_some]
  case own =>
    rw [Jvm.Resolver.internalName]
    split
    · rfl
    · next hother =>
      rcases hown with hthis | hclass | hnone
      · exact absurd (.inl hthis) hother
      · exact absurd (.inr hclass) hother
      · have hfind : imports.find? (·.simpleName == name) = none :=
          List.find?_eq_none.mpr fun i hi => by simpa using hnone i hi
        rw [himported, hfind, Option.map_none, Option.getD_none]

/-- The first of two imports of one simple name is taken, an import that only ends with the letters
of a name is not, and one without a package stands for itself. -/
theorem imports_resolved_alike_repeated :
    let imports : List Import := [⟨["a", "XList"]⟩, ⟨["a", "List"]⟩, ⟨["b", "List"]⟩, ⟨["Io"]⟩]
    let symbols : SymbolTable :=
      { className := "Main", superclass := none, imports := imports.map (·.dotted), fields := [],
        methods := [] }
    let r : Jvm.Resolver := ⟨"Main", imports.map (·.dotted)⟩
    (ResolvedAlike imports symbols r "List" ∧ symbols.importFor? "List" = some "a.List" ∧
      r.internalName "List" = "a/List" ∧ r.internalName "Io" = "Io" ∧
      r.internalName "Set" = "Main") ∧
    (Import.ofDotted "b..List").dotted = "b..List" ∧
    Import.ofDotted (Import.dotted ⟨["b", "List"]⟩) = ⟨["b", "List"]⟩ := by
  intro imports symbols r
  obtain ⟨halike, htext, hpath⟩ := imports_resolved_alike
  have hfree : ∀ i ∈ imports, i.PointFree := by decide
  have hlist := halike imports symbols r hfree rfl rfl "List" (by decide)
  have hio := halike imports symbols r hfree rfl rfl "Io" (by decide)
  have hset := halike imports symbols r hfree rfl rfl "Set" (by decide)
  exact ⟨⟨hlist, hlist.first (i := ⟨["a", "List"]⟩) (by decide),
    hlist.full (i := ⟨["a", "List"]⟩) (by decide) (by decide) (by decide),
    hio.full (i := ⟨["Io"]⟩) (by decide) (by decide) (by decide),
    hset.own (.inr (.inr (by decide)))⟩,
    htext "b..List", hpath ⟨["b", "List"]⟩ (List.cons_ne_nil _ _) (by decide)⟩

end Lookup

end MiniJava
