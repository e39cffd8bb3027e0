import Mathlib.Data.List.Nodup
import MiniJava.Interchange.Settings
import MiniJava.Interchange.Tree

/-!
# Reading back what was written

The JSON form of a tree, of options and of diagnostics loses nothing: its reader gives back the
value it was made from. The parts a form is made of come first, records and variants among them;
the readers of trees follow the constructors.
-/

namespace MiniJava

open Json (Part required optional list? nullable? tag? ofOption)

/-! ## Forms that can be read back -/

section RoundTrips

variable {α : Type} {encode : α → Json} {decode : Json → Option α}

/-- The reader `decode` gives back every value from the form that `encode` gives it. -/
def RoundTrips (encode : α → Json) (decode : Json → Option α) : Prop :=
  ∀ value, decode (encode value) = some value

theorem RoundTrips.injective (h : RoundTrips encode decode) : Function.Injective encode := by
  intro a b hab
  apply Option.some.inj
  rw [← h a, ← h b, hab]

theorem mapM_encoded {values : List α} (h : ∀ value ∈ values, decode (encode value) = some value) :
    (values.map encode).mapM decode = some values := by
  induction values with
  | nil => rfl
  | cons value rest ih =>
    have hrest := ih fun v hv => h v (List.mem_cons_of_mem _ hv)
    simp [List.mapM_cons, h value List.mem_cons_self, hrest]

theorem RoundTrips.list (h : RoundTrips encode decode) :
    RoundTrips (fun values => .arr (values.map encode)) (list? decode) :=
  fun _ => mapM_encoded fun value _ => h value

/-- What may be missing can be read back if nothing that is there is written as `null`. -/
theorem RoundTrips.nullable (h : RoundTrips encode decode) (hnull : ∀ value, encode value ≠ .null) :
    RoundTrips (ofOption encode) (nullable? decode) := by
  intro value
  cases value with
  | none => rfl
  | some value =>
    have hsome : nullable? decode (encode value) = (decode (encode value)).map some := by
      unfold nullable?
      split
      · exact absurd ‹_› (hnull value)
      · rfl
    rw [ofOption, hsome, h value, Option.map_some]

theorem roundTrips_tag (tags : List (String × α)) (name : α → String)
    (h : ∀ value, tags.lookup (name value) = some value) :
    RoundTrips (fun value => .str (name value)) (tag? tags) := by
  intro value
  simp [tag?, Json.variant?, h, Json.noPayload]

end RoundTrips

theorem roundTrips_str : RoundTrips .str Json.str? := fun _ => rfl

theorem roundTrips_bool : RoundTrips .bool Json.bool? := fun _ => rfl

theorem roundTrips_int32 : RoundTrips (fun value => .int value.toInt) Json.int32? := by
  intro value
  have hlow := value.le_toInt
  have hhigh := value.toInt_lt
  rw [Json.int32?, if_pos (by omega), Int32.ofInt_toInt]

theorem uint32?_toNat (value : UInt32) : Json.uint32? (.int value.toNat) = some value := by
  have hhigh := value.toNat_lt
  rw [Json.uint32?, if_pos (by omega), Int.toNat_natCast, UInt32.ofNat_toNat]

theorem uint64?_toNat (value : UInt64) : Json.uint64? (.int value.toNat) = some value := by
  have hhigh := value.toNat_lt
  rw [Json.uint64?, if_pos (by omega), Int.toNat_natCast, UInt64.ofNat_toNat]

namespace Json

variable {α : Type} {members : List (String × Json)} {names : List String}

private theorem find_keyed {β : Type} (key : β → String) {values : List β} {value : β}
    (h : (values.map key).Nodup) (hmem : value ∈ values) :
    values.find? (key · == key value) = some value := by
  induction values with
  | nil => cases hmem
  | cons first rest ih =>
    obtain ⟨hfirst, hrest⟩ := List.nodup_cons.mp h
    rcases List.mem_cons.mp hmem with rfl | hin
    · exact List.find?_cons_of_pos (by simp)
    · have hne : key first ≠ key value := fun heq => hfirst (heq ▸ List.mem_map_of_mem hin)
      rw [List.find?_cons_of_neg (by simpa using hne)]
      exact ih hrest hin

/-- A record whose members have just the names that are asked for, each once, gives their values
in their order. -/
theorem record?_members (hnames : members.map Prod.fst = names) (h : names.Nodup) :
    (obj members).record? names =
      some (members.attach.map fun member => some ⟨member.1.2, sizeOf_member_lt member.2⟩) := by
  have hkeys : (members.attach.map fun member => member.1.1) = names := by
    rw [← hnames, List.attach_map_val]
  have honce : names.all fun name => members.countP (·.1 == name) ≤ 1 := by
    rw [List.all_eq_true]
    intro name _
    have hcount := List.nodup_iff_count_le_one.mp h name
    rw [← hnames, List.count, List.countP_map] at hcount
    exact decide_eq_true hcount
  rw [record?, if_pos honce, ← hkeys, List.map_map]
  congr 1
  apply List.map_congr_left
  intro member hmem
  rw [Function.comp_apply, find_keyed (fun m : { m // m ∈ members } => m.1.1) (hkeys ▸ h) hmem]
  rfl

theorem variantRecord?_obj (listed : Bool) :
    (obj members).variantRecord? listed names = (obj members).record? names := by
  simp [variantRecord?, isArr]

theorem unattach_items {items : List Json} :
    (items.attach.map fun item => (⟨item.1, sizeOf_item_lt item.2⟩ : Part (arr items))).unattach =
      items := by
  rw [List.unattach, List.map_map]
  exact List.attach_map_subtype_val items

end Json

/-! ## Trees -/

theorem Ty.roundTrips : RoundTrips Ty.toJson Ty.ofJson? := by
  intro ty
  induction ty with
  | array element ih => rw [Ty.toJson, Ty.ofJson?]; simp [Json.variant?, ih]
  | _ => rw [Ty.toJson, Ty.ofJson?]; simp [Json.variant?, Json.noPayload, Json.str?]

theorem BinOp.roundTrips : RoundTrips BinOp.toJson BinOp.ofJson? := by
  intro op
  cases op <;> decide

theorem Access.roundTrips : RoundTrips Access.toJson Access.ofJson? := by
  intro access
  cases access <;> decide

theorem Expr.toJson_ne_null (e : Expr) : e.toJson ≠ .null := by
  cases e with
  | literal value => cases value <;> rw [Expr.toJson] <;> exact nofun
  | _ => rw [Expr.toJson]; exact nofun

section

variable (listed : Bool)

@[simp] theorem Json.required_some {α : Type} {whole : Json} (part : Part whole)
    (decode : Part whole → Option α) : required (some part) decode = decode part := by
  rw [required, Option.bind_some]

@[simp] theorem Json.optional_some {α : Type} {whole : Json} (part : Part whole) (default : α)
    (decode : Part whole → Option α) : optional (some part) default decode = decode part := by
  rw [optional]

mutual

theorem Expr.roundTrips : RoundTrips Expr.toJson (Expr.ofJson? listed)
  | .literal (.int value) => by
    rw [Expr.toJson, Expr.ofJson?]
    simp [Json.variant?, roundTrips_int32 value]
  | .literal (.bool value) => by
    rw [Expr.toJson, Expr.ofJson?]
    simp [Json.variant?, roundTrips_bool value]
  | .self => by
    rw [Expr.toJson, Expr.ofJson?]
    simp [Json.variant?, Json.noPayload]
  | .var name => by
    rw [Expr.toJson, Expr.ofJson?]
    simp [Json.variant?, roundTrips_str name]
  | .paren inner => by
    rw [Expr.toJson, Expr.ofJson?]
    simp [Json.variant?, Expr.roundTrips inner]
  | .binary op left right => by
    rw [Expr.toJson, Expr.ofJson?]
    simp [Json.variant?, Json.variantRecord?_obj, Json.record?_members,
      BinOp.roundTrips op, Expr.roundTrips left, Expr.roundTrips right]
  | .not operand => by
    rw [Expr.toJson, Expr.ofJson?]
    simp [Json.variant?, Expr.roundTrips operand]
  | .newArray element size => by
    rw [Expr.toJson, Expr.ofJson?]
    simp [Json.variant?, Json.variantRecord?_obj, Json.record?_members,
      Ty.roundTrips element, Expr.roundTrips size]
  | .arrayLiteral elements => by
    rw [Expr.toJson, Expr.ofJson?]
    simp [Json.variant?, Json.items?, Json.unattach_items, Expr.list_roundTrips elements]
  | .index array place => by
    rw [Expr.toJson, Expr.ofJson?]
    simp [Json.variant?, Json.variantRecord?_obj, Json.record?_members,
      Expr.roundTrips array, Expr.roundTrips place]
  | .length array => by
    rw [Expr.toJson, Expr.ofJson?]
    simp [Json.variant?, Expr.roundTrips array]
  | .newObject name => by
    rw [Expr.toJson, Expr.ofJson?]
    simp [Json.variant?, roundTrips_str name]
  | .call target method args => by
    rw [Expr.toJson, Expr.ofJson?]
    simp [Json.variant?, Json.variantRecord?_obj, Json.record?_members, Json.items?, Json.unattach_items,
      Expr.roundTrips target, roundTrips_str method, Expr.list_roundTrips args]

theorem Expr.list_roundTrips : (es : List Expr) →
    (Expr.listToJson es).mapM (Expr.ofJson? listed) = some es
  | [] => rfl
  | e :: es => by
    rw [Expr.listToJson, List.mapM_cons, Expr.roundTrips e, Expr.list_roundTrips es]
    rfl

end

mutual

theorem Stmt.roundTrips : RoundTrips Stmt.toJson (Stmt.ofJson? listed)
  | .assign target value => by
    rw [Stmt.toJson, Stmt.ofJson?]
    simp [Json.variant?, Json.variantRecord?_obj, Json.record?_members,
      roundTrips_str target, Expr.roundTrips listed value]
  | .arrayAssign target index value => by
    rw [Stmt.toJson, Stmt.ofJson?]
    simp [Json.variant?, Json.variantRecord?_obj, Json.record?_members,
      roundTrips_str target, Expr.roundTrips listed index, Expr.roundTrips listed value]
  | .ite condition thenBranch elseBranch => by
    rw [Stmt.toJson, Stmt.ofJson?]
    simp [Json.variant?, Json.variantRecord?_obj, Json.record?_members,
      Expr.roundTrips listed condition, Stmt.roundTrips thenBranch, Stmt.roundTrips elseBranch]
  | .loop condition body => by
    rw [Stmt.toJson, Stmt.ofJson?]
    simp [Json.variant?, Json.variantRecord?_obj, Json.record?_members,
      Expr.roundTrips listed condition, Stmt.roundTrips body]
  | .block body => by
    rw [Stmt.toJson, Stmt.ofJson?]
    simp [Json.variant?, Json.items?, Json.unattach_items, Stmt.list_roundTrips body]
  | .ret value => by
    rw [Stmt.toJson, Stmt.ofJson?]
    simp [Json.variant?, (Expr.roundTrips listed).nullable Expr.toJson_ne_null value]
  | .expr value => by
    rw [Stmt.toJson, Stmt.ofJson?]
    simp [Json.variant?, Expr.roundTrips listed value]

theorem Stmt.list_roundTrips : (ss : List Stmt) →
    (Stmt.listToJson ss).mapM (Stmt.ofJson? listed) = some ss
  | [] => rfl
  | s :: ss => by
    rw [Stmt.listToJson, List.mapM_cons, Stmt.roundTrips s, Stmt.list_roundTrips ss]
    rfl

end

/-! ## Programs -/

theorem Variable.roundTrips : RoundTrips Variable.toJson Variable.ofJson? := by
  intro v
  simp [Variable.toJson, Variable.ofJson?, Json.record?_members, roundTrips_str v.name,
    Ty.roundTrips v.ty]

theorem Param.roundTrips : RoundTrips Param.toJson Param.ofJson? := by
  intro p
  simp [Param.toJson, Param.ofJson?, Json.record?_members, roundTrips_str p.name,
    Ty.roundTrips p.ty, roundTrips_bool p.isVarargs]

theorem Field.roundTrips : RoundTrips Field.toJson (Field.ofJson? listed) := by
  intro f
  simp [Field.toJson, Field.ofJson?, Json.record?_members, roundTrips_str f.name,
    Ty.roundTrips f.ty, Access.roundTrips f.access, roundTrips_bool f.isStatic,
    roundTrips_bool f.isFinal, roundTrips_bool f.isVarargs,
    (Expr.roundTrips listed).nullable Expr.toJson_ne_null f.initializer]

theorem Method.roundTrips : RoundTrips Method.toJson (Method.ofJson? listed) := by
  intro m
  have hbody : list? (Stmt.ofJson? listed) (.arr (Stmt.listToJson m.body)) = some m.body :=
    Stmt.list_roundTrips listed m.body
  simp [Method.toJson, Method.ofJson?, Json.record?_members, roundTrips_str m.name,
    Access.roundTrips m.access, roundTrips_bool m.isStatic, roundTrips_bool m.isFinal,
    Ty.roundTrips m.returnTy, roundTrips_bool m.returnsVarargs, Param.roundTrips.list m.params,
    Variable.roundTrips.list m.locals, hbody]

theorem Class.roundTrips : RoundTrips Class.toJson (Class.ofJson? listed) := by
  intro c
  simp [Class.toJson, Class.ofJson?, Json.record?_members, roundTrips_str c.name,
    roundTrips_str.nullable nofun c.superclass, (Field.roundTrips listed).list c.fields,
    (Method.roundTrips listed).list c.methods]

theorem Import.roundTrips : RoundTrips Import.toJson Import.ofJson? := by
  intro i
  simp [Import.toJson, Import.ofJson?, Json.record?_members, roundTrips_str.list i.path]

theorem Program.roundTrips : RoundTrips Program.toJson (Program.ofJson? listed) := by
  intro p
  simp [Program.toJson, Program.ofJson?, Json.record?_members, Import.roundTrips.list p.imports,
    Class.roundTrips listed p.mainClass]

end

/-! ## Options and diagnostics -/

theorem Options.roundTrips : RoundTrips Options.toJson Options.ofJson? := by
  intro o
  have hpolicy := roundTrips_tag StackPolicy.tags StackPolicy.name
    (fun policy => by cases policy <;> decide) o.stackPolicy
  have hnegation := roundTrips_tag Negation.tags Negation.name
    (fun negation => by cases negation <;> decide) o.negation
  rw [Options.toJson, Options.ofJson?, Json.record?_members, Option.bind_eq_bind, Option.bind_some]
  · simp only [List.attach_cons, List.map_cons, List.attach_nil, List.map_nil]
    simp [roundTrips_bool o.optimize, uint64?_toNat o.maxPasses, hpolicy, hnegation]
  · rfl
  · decide

theorem Diagnostic.roundTrips : RoundTrips Diagnostic.toJson Diagnostic.ofJson? := by
  intro d
  have hseverity := roundTrips_tag Severity.tags Severity.text
    (fun severity => by cases severity <;> decide) d.severity
  have hstage := roundTrips_tag Stage.tags Stage.name
    (fun stage => by cases stage <;> decide) d.stage
  simp [Diagnostic.toJson, Diagnostic.ofJson?, Json.record?_members, hseverity, hstage,
    uint32?_toNat d.line, uint32?_toNat d.column, roundTrips_str d.message]

/-- The JSON form of programs, of options and of lists of diagnostics loses nothing. Every value is
read back as it was, whether or not the parts of statements and expressions may be listed without
their names, and so different values have different forms. -/
theorem json_lossless :
    (∀ listed, RoundTrips Program.toJson (Program.ofJson? listed)) ∧
      RoundTrips Options.toJson Options.ofJson? ∧
      RoundTrips Diagnostic.listToJson Diagnostic.listOfJson? ∧
      Function.Injective Program.toJson ∧
      Function.Injective Options.toJson ∧
      Function.Injective Diagnostic.listToJson :=
  ⟨Program.roundTrips, Options.roundTrips, Diagnostic.roundTrips.list,
    (Program.roundTrips false).injective, Options.roundTrips.injective,
    Diagnostic.roundTrips.list.injective⟩

end MiniJava
