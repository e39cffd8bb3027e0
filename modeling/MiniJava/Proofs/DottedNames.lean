import MiniJava.DottedName

/-!
# Dotted names and their segments

A text and its segments determine each other as long as there is a segment and none holds a point.
A name ends with another one without points just if this is its last segment.
-/

namespace MiniJava.DottedName

/-! ## Segments -/

theorem segmentsOfChars_plain {segment : List Char} (h : '.' ∉ segment) :
    segmentsOfChars segment = [segment] := by
  induction segment with
  | nil => rfl
  | cons c more ih =>
    rw [List.mem_cons, not_or] at h
    rw [segmentsOfChars, if_neg (Ne.symm h.1), ih h.2]

theorem segmentsOfChars_ne_nil (cs : List Char) : segmentsOfChars cs ≠ [] := by
  cases cs with
  | nil => exact List.cons_ne_nil _ _
  | cons c rest =>
    rw [segmentsOfChars]
    split
    · exact List.cons_ne_nil _ _
    · split <;> exact List.cons_ne_nil _ _

theorem segmentsOfChars_append (front rest : List Char) :
    segmentsOfChars (front ++ '.' :: rest) = segmentsOfChars front ++ segmentsOfChars rest := by
  induction front with
  | nil => simp [segmentsOfChars]
  | cons c more ih =>
    rw [List.cons_append, segmentsOfChars, segmentsOfChars, ih]
    split
    · rfl
    · cases hmore : segmentsOfChars more with
      | nil => exact absurd hmore (segmentsOfChars_ne_nil more)
      | cons segment segments => rfl

theorem segmentsOfChars_join : ∀ {segments : List (List Char)}, (∀ s ∈ segments, '.' ∉ s) →
    segments ≠ [] → segmentsOfChars (joinChars segments) = segments
  | [segment], h, _ => segmentsOfChars_plain (h segment List.mem_cons_self)
  | segment :: next :: rest, h, _ => by
    rw [List.forall_mem_cons] at h
    rw [joinChars, segmentsOfChars_append, segmentsOfChars_plain h.1,
      segmentsOfChars_join h.2 (List.cons_ne_nil _ _), List.singleton_append]

theorem joinChars_segments (cs : List Char) : joinChars (segmentsOfChars cs) = cs := by
  induction cs with
  | nil => rfl
  | cons c rest ih =>
    rw [segmentsOfChars]
    cases hrest : segmentsOfChars rest with
    | nil => exact absurd hrest (segmentsOfChars_ne_nil rest)
    | cons segment segments =>
      rw [hrest] at ih
      split
      · subst c
        rw [joinChars, ih, List.nil_append]
      · rw [← ih]
        cases segments <;> rfl

theorem join_segments (name : String) : join (segments name) = name := by
  have hchars : (segments name).map String.toList = segmentsOfChars name.toList := by
    simp [segments, Function.comp_def]
  rw [join, hchars, joinChars_segments, String.ofList_toList]

theorem segments_join {path : List String} (h : ∀ s ∈ path, '.' ∉ s.toList) (hpath : path ≠ []) :
    segments (join path) = path := by
  rw [segments, join, String.toList_ofList,
    segmentsOfChars_join (List.forall_mem_map.mpr h) (mt List.map_eq_nil_iff.mp hpath)]
  simp [Function.comp_def]

/-! ## The last segment -/

theorem lastSegment_join {path : List String} (h : ∀ s ∈ path, '.' ∉ s.toList) :
    lastSegment (join path) = path.getLastD "" := by
  rcases List.eq_nil_or_concat path with rfl | ⟨front, last, rfl⟩
  · rfl
  · have hchars := segmentsOfChars_join (List.forall_mem_map.mpr h) (by simp)
    rw [lastSegment, join, String.toList_ofList, hchars]
    simp

theorem lastSegment_plain {name : String} (h : '.' ∉ name.toList) : lastSegment name = name := by
  rw [lastSegment, segmentsOfChars_plain h]
  exact String.ofList_toList

theorem lastSegment_of_suffix {name simple : String} (h : '.' ∉ simple.toList)
    (hsuffix : '.' :: simple.toList <:+ name.toList) : lastSegment name = simple := by
  obtain ⟨front, hfront⟩ := hsuffix
  rw [lastSegment, ← hfront, segmentsOfChars_append, segmentsOfChars_plain h]
  simp

/-- What follows the last point of a text, if there is one. -/
theorem segmentsOfChars_last : ∀ (cs : List Char), ∃ first others,
    segmentsOfChars cs = first :: others ∧ (others = [] → first = cs) ∧
      (others ≠ [] → ('.' :: others.getLastD []) <:+ cs)
  | [] => ⟨[], [], rfl, fun _ => rfl, fun h => absurd rfl h⟩
  | c :: rest => by
    obtain ⟨first, others, hrest, halone, hlast⟩ := segmentsOfChars_last rest
    rw [segmentsOfChars, hrest]
    by_cases hc : c = '.'
    · subst hc
      refine ⟨[], first :: others, if_pos rfl, nofun, fun _ => ?_⟩
      cases others with
      | nil => exact halone rfl ▸ List.suffix_refl _
      | cons other more => exact (hlast nofun).trans (List.suffix_cons '.' rest)
    · refine ⟨c :: first, others, if_neg hc, fun h => by rw [halone h], fun h => ?_⟩
      exact (hlast h).trans (List.suffix_cons c rest)

theorem endsWith_lastSegment (name : String) : endsWith name (lastSegment name) := by
  obtain ⟨first, others, hsegments, halone, hlast⟩ := segmentsOfChars_last name.toList
  rw [endsWith, lastSegment, hsegments, Bool.or_eq_true]
  cases others with
  | nil =>
    refine .inl ?_
    rw [halone rfl]
    exact beq_iff_eq.mpr String.ofList_toList.symm
  | cons other more =>
    refine .inr (List.isSuffixOf_iff_suffix.mpr ?_)
    rw [String.toList_ofList]
    exact hlast nofun

/-- A name ends with one that holds no point just if this is its last segment. -/
theorem endsWith_iff {name simple : String} (h : '.' ∉ simple.toList) :
    endsWith name simple ↔ lastSegment name = simple := by
  constructor
  · intro hends
    rw [endsWith, Bool.or_eq_true] at hends
    rcases hends with heq | hsuffix
    · rw [eq_of_beq heq]
      exact lastSegment_plain h
    · exact lastSegment_of_suffix h (List.isSuffixOf_iff_suffix.mp hsuffix)
  · rintro rfl
    exact endsWith_lastSegment name

/-! ## Slashes -/

/-- A name whose slashed form has no slash has no point. -/
theorem slashed_eq {name text : String} (h : slashed name = text) (htext : '/' ∉ text.toList) :
    name = text ∧ '.' ∉ name.toList := by
  have hpoint : '.' ∉ name.toList := by
    intro hmem
    rw [← h, slashed, String.toList_ofList] at htext
    exact htext (List.mem_map.mpr ⟨'.', hmem, rfl⟩)
  refine ⟨?_, hpoint⟩
  rw [← h, slashed, List.map_congr_left (g := id), List.map_id, String.ofList_toList]
  intro c hc
  exact if_neg (ne_of_mem_of_not_mem hc hpoint)

end MiniJava.DottedName
