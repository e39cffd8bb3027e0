import MiniJava.Ir.Method

/-!
# Tables of variables

A table maps variables to registers and counts the registers that it has given. Nothing in it says
that different variables have different registers, or that the count is right: this is what binding
keeps. From it follows that the table is the list of its variables in disguise, in which the register
of a variable is its place.
-/

namespace MiniJava.Ir

namespace VarTable

variable {t t' : VarTable} {key key' : VarKey} {slot slot' : Slot} {register : Nat} {ty : Ty}

/-! ## Variables with a register -/

/-- The variables of a table, in the order in which they were bound. -/
def keys (t : VarTable) : List VarKey :=
  t.slots.map (·.1)

theorem slot?_isSome : (t.slot? key).isSome ↔ key ∈ t.keys := by
  rw [slot?, List.lookup_isSome_iff, keys, List.mem_map]
  exact exists_congr fun entry => and_congr_right fun _ => beq_iff_eq.trans eq_comm

theorem register?_isSome : (t.register? key).isSome ↔ key ∈ t.keys := by
  rw [register?, Option.isSome_map, slot?_isSome]

theorem register?_eq_some :
    t.register? key = some register ↔ ∃ ty, t.slot? key = some ⟨register, ty⟩ := by
  rw [register?, Option.map_eq_some_iff]
  constructor
  · rintro ⟨⟨_, ty⟩, hslot, rfl⟩
    exact ⟨ty, hslot⟩
  · rintro ⟨ty, hslot⟩
    exact ⟨_, hslot, rfl⟩

/-- The variables with their types. -/
def toList (t : VarTable) : List (VarKey × Ty) :=
  t.slots.map fun entry => (entry.1, entry.2.ty)

theorem keys_eq_toList (t : VarTable) : t.keys = t.toList.map (·.1) := by
  rw [toList, List.map_map]
  rfl

/-! ## Growth -/

/-- A table with the entries of a list bound in their order. -/
def bindAll (t : VarTable) (entries : List (VarKey × Ty)) : VarTable :=
  entries.foldl (fun t entry => t.bind entry.1 entry.2) t

/-- The table of the variables of a list. -/
def ofList (entries : List (VarKey × Ty)) : VarTable :=
  bindAll {} entries

/-- An entry is never changed or taken out. -/
theorem slot?_grown (h : t.slots <+: t'.slots) (hkey : t.slot? key = some slot) :
    t'.slot? key = some slot := by
  obtain ⟨rest, hrest⟩ := h
  rw [slot?, ← hrest, List.lookup_append, show t.slots.lookup key = some slot from hkey]
  rfl

theorem register?_grown (h : t.slots <+: t'.slots) (hkey : t.register? key = some register) :
    t'.register? key = some register := by
  obtain ⟨ty, hslot⟩ := register?_eq_some.mp hkey
  exact register?_eq_some.mpr ⟨ty, slot?_grown h hslot⟩

theorem register?_isSome_grown (h : t.slots <+: t'.slots) (hkey : (t.register? key).isSome) :
    (t'.register? key).isSome := by
  obtain ⟨register, hregister⟩ := Option.isSome_iff_exists.mp hkey
  rw [register?_grown h hregister]
  rfl

theorem toList_grown (h : t.slots <+: t'.slots) : t.toList <+: t'.toList :=
  h.map _

theorem bind_known (h : key ∈ t.keys) (ty : Ty) : t.bind key ty = t :=
  if_pos (slot?_isSome.mpr h)

theorem bind_new (h : key ∉ t.keys) (ty : Ty) :
    t.bind key ty = { slots := t.slots ++ [(key, ⟨t.next, ty⟩)], next := t.next + 1 } :=
  if_neg (mt slot?_isSome.mp h)

theorem bind_grown (t : VarTable) (key : VarKey) (ty : Ty) : t.slots <+: (t.bind key ty).slots := by
  by_cases h : key ∈ t.keys
  · exact (bind_known h ty).symm ▸ List.prefix_refl t.slots
  · rw [bind_new h]
    exact List.prefix_append _ _

theorem bindAll_append (t : VarTable) (a b : List (VarKey × Ty)) :
    t.bindAll (a ++ b) = (t.bindAll a).bindAll b :=
  List.foldl_append

theorem bindAll_grown (t : VarTable) : ∀ entries : List (VarKey × Ty),
    t.slots <+: (t.bindAll entries).slots
  | [] => List.prefix_refl t.slots
  | entry :: rest => (t.bind_grown entry.1 entry.2).trans (bindAll_grown _ rest)

theorem keys_bind (t : VarTable) (key : VarKey) (ty : Ty) :
    (t.bind key ty).keys = if key ∈ t.keys then t.keys else t.keys ++ [key] := by
  by_cases h : key ∈ t.keys
  · rw [bind_known h, if_pos h]
  · rw [bind_new h, if_neg h, keys, List.map_append]
    rfl

theorem mem_keys_bind : key' ∈ (t.bind key ty).keys ↔ key' ∈ t.keys ∨ key' = key := by
  rw [keys_bind]
  split
  · rename_i h
    refine ⟨.inl, fun hkey => hkey.elim id ?_⟩
    rintro rfl
    exact h
  · rw [List.mem_append, List.mem_singleton]

theorem mem_keys_bindAll {entries : List (VarKey × Ty)} :
    key ∈ (t.bindAll entries).keys ↔ key ∈ t.keys ∨ key ∈ entries.map (·.1) := by
  induction entries generalizing t with
  | nil => exact ⟨.inl, fun h => h.resolve_right List.not_mem_nil⟩
  | cons entry rest ih =>
    rw [bindAll, List.foldl_cons, ← bindAll, ih, mem_keys_bind, List.map_cons, List.mem_cons, or_assoc]

theorem keys_bindAll : ∀ (t : VarTable) (entries : List (VarKey × Ty)), (t.bindAll entries).keys =
    t.keys ++ ((entries.map (·.1)).filter (· ∉ t.keys)).eraseDups
  | t, [] => (List.append_nil t.keys).symm
  | t, (key, ty) :: rest => by
    have hrest := keys_bindAll (t.bind key ty) rest
    rw [keys_bind] at hrest
    show ((t.bind key ty).bindAll rest).keys =
      t.keys ++ ((key :: rest.map (·.1)).filter (· ∉ t.keys)).eraseDups
    rw [hrest]
    by_cases hold : key ∈ t.keys
    · rw [if_pos hold, List.filter_cons_of_neg (by simpa using hold)]
    · have hlater : (rest.map (·.1)).filter (· ∉ t.keys ++ [key]) =
          ((rest.map (·.1)).filter (· ∉ t.keys)).filter fun other => !other == key := by
        rw [List.filter_filter]
        refine List.filter_congr fun other _ => ?_
        by_cases hother : other = key <;> simp [hother]
      rw [if_neg hold, List.filter_cons_of_pos (by simpa using hold), List.eraseDups_cons,
        List.append_assoc, hlater]
      rfl

theorem bindAll_new : ∀ (t : VarTable) (entries : List (VarKey × Ty)),
    (t.keys ++ entries.map (·.1)).Nodup → (t.bindAll entries).toList = t.toList ++ entries
  | t, [], _ => (List.append_nil t.toList).symm
  | t, (key, ty) :: rest, h => by
    have hnew : key ∉ t.keys := fun hmem =>
      (List.nodup_append.mp h).2.2 _ hmem _ List.mem_cons_self rfl
    have hrest := bindAll_new (t.bind key ty) rest
    rw [keys_bind, if_neg hnew, List.append_assoc] at hrest
    have hlist : (t.bind key ty).toList = t.toList ++ [(key, ty)] := by
      rw [bind_new hnew, toList, List.map_append]
      rfl
    show ((t.bind key ty).bindAll rest).toList = t.toList ++ (key, ty) :: rest
    rw [hrest h, hlist, List.append_assoc]
    rfl

/-! ## Registers in their order -/

/-- No variable has two entries, and the registers are those below the next one in the order in which
they were given. -/
structure Sequential (t : VarTable) : Prop where
  nodup : t.keys.Nodup
  registers : t.slots.map (·.2.register) = List.range t.next

namespace Sequential

theorem empty : Sequential {} :=
  ⟨List.nodup_nil, rfl⟩

theorem bind (h : t.Sequential) (key : VarKey) (ty : Ty) : (t.bind key ty).Sequential := by
  by_cases hkey : key ∈ t.keys
  · rwa [bind_known hkey]
  constructor
  · rw [keys_bind, if_neg hkey]
    refine List.nodup_append.mpr ⟨h.nodup, List.pairwise_singleton _ key, ?_⟩
    rintro a ha b hb rfl
    rw [List.mem_singleton] at hb
    exact hkey (hb ▸ ha)
  · rw [bind_new hkey, List.map_append, h.registers, List.range_succ]
    rfl

theorem bindAll : ∀ {t : VarTable}, t.Sequential → ∀ entries : List (VarKey × Ty),
    (t.bindAll entries).Sequential
  | _, h, [] => h
  | _, h, entry :: rest => bindAll (h.bind entry.1 entry.2) rest

theorem ofList (entries : List (VarKey × Ty)) : (VarTable.ofList entries).Sequential :=
  empty.bindAll entries

theorem next_eq (h : t.Sequential) : t.next = t.keys.length := by
  have hlength := congrArg List.length h.registers
  rw [List.length_map, List.length_range] at hlength
  rw [keys, List.length_map, hlength]

theorem place (h : t.Sequential) {n : Nat} (hn : t.slots[n]? = some (key, slot)) :
    slot.register = n := by
  have hplace : (t.slots.map (·.2.register))[n]? = some slot.register := by
    rw [List.getElem?_map, hn]
    rfl
  rw [h.registers] at hplace
  obtain ⟨hlt, hget⟩ := List.getElem?_eq_some_iff.mp hplace
  rw [← hget, List.getElem_range]

theorem place_of_slot? (h : t.Sequential) (hkey : t.slot? key = some slot) :
    t.slots[slot.register]? = some (key, slot) := by
  obtain ⟨front, back, hslots, _⟩ := List.lookup_eq_some_iff.mp hkey
  have hn : t.slots[front.length]? = some (key, slot) := by
    rw [hslots, List.getElem?_append_right (Nat.le_refl _), Nat.sub_self]
    rfl
  rwa [h.place hn]

theorem slot?_of_place (h : t.Sequential) {n : Nat} (hn : t.slots[n]? = some (key, slot)) :
    t.slot? key = some slot := by
  have hmem : key ∈ t.keys := List.mem_map.mpr ⟨_, List.mem_of_getElem? hn, rfl⟩
  obtain ⟨slot', hslot'⟩ := Option.isSome_iff_exists.mp (slot?_isSome.mpr hmem)
  have hn' := h.place_of_slot? hslot'
  have hkeys : t.keys[slot'.register]? = t.keys[n]? := by
    rw [keys, List.getElem?_map, List.getElem?_map, hn, hn']
    rfl
  have hlt : slot'.register < t.keys.length := by
    rw [keys, List.length_map]
    exact (List.getElem?_eq_some_iff.mp hn').1
  rw [(List.getElem?_inj hlt h.nodup).mp hkeys, hn] at hn'
  cases hn'
  exact hslot'

theorem register_inj (h : t.Sequential) (hkey : t.register? key = some register)
    (hkey' : t.register? key' = some register) : key = key' := by
  obtain ⟨ty, hslot⟩ := register?_eq_some.mp hkey
  obtain ⟨ty', hslot'⟩ := register?_eq_some.mp hkey'
  have hplace : some (key, Slot.mk register ty) = some (key', Slot.mk register ty') :=
    (h.place_of_slot? hslot).symm.trans (h.place_of_slot? hslot')
  exact congrArg Prod.fst (Option.some.inj hplace)

theorem slot?_eq_some (h : t.Sequential) :
    t.slot? key = some ⟨register, ty⟩ ↔ t.toList[register]? = some (key, ty) := by
  rw [toList, List.getElem?_map, Option.map_eq_some_iff]
  constructor
  · exact fun hslot => ⟨_, h.place_of_slot? hslot, rfl⟩
  · rintro ⟨⟨_, slot⟩, hn, heq⟩
    obtain ⟨rfl, rfl⟩ := Prod.mk.inj heq
    rw [h.slot?_of_place hn, ← h.place hn]

theorem slot?_of_front (h : t.Sequential) {front : List (VarKey × Ty)} (hfront : front <+: t.toList)
    {n : Nat} (hn : front[n]? = some (key, ty)) : t.slot? key = some ⟨n, ty⟩ := by
  obtain ⟨rest, hrest⟩ := hfront
  rw [h.slot?_eq_some, ← hrest, List.getElem?_append_left (List.getElem?_eq_some_iff.mp hn).1, hn]

/-- The registers in use are those below the next one. -/
theorem used_iff (h : t.Sequential) :
    (∃ key ty, t.slot? key = some ⟨register, ty⟩) ↔ register < t.next := by
  simp only [h.slot?_eq_some]
  rw [h.next_eq, keys_eq_toList, List.length_map]
  refine ⟨fun ⟨key, ty, hn⟩ => (List.getElem?_eq_some_iff.mp hn).1, fun hlt => ?_⟩
  exact ⟨_, _, List.getElem?_eq_getElem hlt⟩

/-- The table is the list of its variables, in which each one has its place for its register. -/
theorem zipIdx_eq (h : t.Sequential) : t.zipIdx = t.toList.zipIdx := by
  refine List.ext_getElem? fun n => ?_
  rw [zipIdx, toList, List.getElem?_map, List.getElem?_zipIdx, List.getElem?_map, Option.map_map]
  cases hn : t.slots[n]? with
  | none => rfl
  | some entry =>
    have hregister := h.place hn
    rw [Option.map_some, Option.map_some, Function.comp_apply, hregister, Nat.zero_add]

theorem register?_of_keys (h : t.Sequential) (hkey : t.keys[register]? = some key) :
    t.register? key = some register := by
  rw [keys_eq_toList, List.getElem?_map, Option.map_eq_some_iff] at hkey
  obtain ⟨⟨_, ty⟩, hentry, rfl⟩ := hkey
  exact register?_eq_some.mpr ⟨ty, h.slot?_eq_some.mpr hentry⟩

/-- The highest register is the one in front of the next one. -/
theorem limit_eq (h : t.Sequential) : t.maxRegister?.elim 0 (· + 1) = t.next := by
  rw [maxRegister?, h.registers]
  cases t.next with
  | zero => rfl
  | succ n =>
    have hmax : (List.range (n + 1)).max? = some n :=
      List.max?_eq_some_iff.mpr ⟨List.self_mem_range_succ, fun m hm =>
        Nat.le_of_lt_succ (List.mem_range.mp hm)⟩
    rw [hmax]
    rfl

end Sequential

end VarTable

theorem VarTable.Sequential.localsLimit_eq {m : Method} (h : m.vars.Sequential) :
    m.localsLimit = m.vars.keys.length :=
  h.limit_eq.trans h.next_eq

end MiniJava.Ir
