import Scribe.Syntax.Decode
import Scribe.Syntax.Encode

/-!
# What is written is read back

Reading undoes writing: the JSON value of a module is read as that module, and so is every node in
it. A node is read in three steps. Its kind is found again by its tag, its fields are found among
the members of the object (`Node.ofJson?_node`), and its parts are read back by induction. The first
two steps rest on the tables of kinds: tags differ, the fields of a kind differ, and none of them is
called like the member that holds the kind (`LawfulTagged`).
-/

namespace Scribe.Json

/-! ## Records -/

variable {members : List (String × Json)}

theorem distinctKeys_of_nodup (h : (members.map (·.1)).Nodup) : distinctKeys members = true := by
  induction members with
  | nil => rfl
  | cons m rest ih =>
    obtain ⟨key, v⟩ := m
    obtain ⟨hkey, hrest⟩ := List.nodup_cons.mp h
    have hany : rest.any (·.1 == key) = false := by
      rw [List.any_eq_false]
      intro m hm heq
      exact hkey (List.mem_map.mpr ⟨m, hm, eq_of_beq heq⟩)
    rw [distinctKeys, hany, ih hrest]
    rfl

/-- Members whose keys are the declared fields are all kept. -/
theorem filter_declared {declared : List String} (h : members.map (·.1) = declared) :
    members.filter (fun m => declared.contains m.1) = members := by
  rw [List.filter_eq_self]
  intro m hm
  rw [List.contains_iff_mem, ← h]
  exact List.mem_map_of_mem hm

theorem Record.ofMembers?_eq {declared : List String} {r : Record (.object members)}
    (h : members.filter (fun m => declared.contains m.1) = r.fields)
    (hnodup : (r.fields.map (·.1)).Nodup) : Record.ofMembers? declared members = some r := by
  obtain ⟨fields, _⟩ := r
  subst h
  exact if_pos (distinctKeys_of_nodup hnodup)

/-- The record whose fields are the members of an object. -/
abbrev Record.ofObject (members : List (String × Json)) : Record (.object members) :=
  ⟨members, fun _ h => sizeOf_member h⟩

/-- An object that has just the declared fields is read as the record of its members. -/
theorem Record.ofJson?_object (declared : List String) (h : members.map (·.1) = declared)
    (hnodup : declared.Nodup) :
    Record.ofJson? declared (.object members) = some (.ofObject members) :=
  Record.ofMembers?_eq (filter_declared h) (h ▸ hnodup)

/-- A field is looked up among the members of the record. -/
@[simp] theorem Record.unattach_get? {j : Json} (r : Record j) (name : String) :
    (r.get? name).unattach = (r.fields.find? (·.1 == name)).map (·.2) := by
  unfold Record.get?
  split
  next m hm => exact (congrArg (Option.map (·.2)) hm).symm
  next hm => exact (congrArg (Option.map (·.2)) hm).symm

section Fields

variable {j v : Json} (r : Record j) (name : String) {key : String}

theorem Record.get?_eq (h : r.fields.find? (·.1 == name) = some (key, v)) :
    ∃ hv, r.get? name = some ⟨v, hv⟩ := by
  unfold Record.get?
  split
  next m hm =>
    obtain rfl : m = (key, v) := Option.some.inj (hm.symm.trans h)
    exact ⟨r.smaller _ (List.mem_of_find?_eq_some h), rfl⟩
  next hm => cases h.symm.trans hm

/-- A part that is there is not taken for a missing one. -/
theorem Record.optional?_eq (h : r.fields.find? (·.1 == name) = some (key, v)) (hv : v ≠ .null) :
    ∃ hv, r.optional? name = some ⟨v, hv⟩ := by
  obtain ⟨hlt, hget⟩ := Record.get?_eq r name h
  refine ⟨hlt, ?_⟩
  unfold Record.optional?
  rw [hget]
  cases v with
  | null => exact absurd rfl hv
  | _ => rfl

theorem Record.optional?_eq_none (h : r.fields.find? (·.1 == name) = some (key, .null)) :
    r.optional? name = none := by
  obtain ⟨_, hget⟩ := Record.get?_eq r name h
  unfold Record.optional?
  rw [hget]

end Fields

/-! ## Nodes -/

/-- A family of kinds that can be told apart by their tags, and whose nodes have no field that is
hidden by another one or by the kind. -/
class LawfulTagged (κ : Type) [Tagged κ] : Prop where
  ofTag?_tag (kind : κ) : Tagged.ofTag? (Tagged.tag kind) = some kind
  nodup_fields (kind : κ) : (Tagged.fields kind).Nodup
  kind_notMem_fields (kind : κ) : "kind" ∉ Tagged.fields kind

/-- The record of a node: its members without the kind. -/
abbrev Record.ofNode {κ : Type} [Tagged κ] (kind : κ) (members : List (String × Json)) :
    Record (node kind members) :=
  ⟨members, fun _ h => sizeOf_member (List.mem_cons_of_mem _ h)⟩

section Nodes

variable {κ : Type} [Tagged κ] [LawfulTagged κ] {nested : Bool} {kind : κ}
  {members : List (String × Json)}

/-- The kind of a node is given once. -/
theorem filter_kind (h : members.map (·.1) = Tagged.fields kind) :
    (("kind", Json.string (Tagged.tag kind)) :: members).filter (·.1 == "kind") =
      [("kind", .string (Tagged.tag kind))] := by
  have hkind := LawfulTagged.kind_notMem_fields kind
  have hothers : members.filter (·.1 == "kind") = [] := by
    rw [List.filter_eq_nil_iff]
    intro m hm heq
    rw [← h, ← eq_of_beq heq] at hkind
    exact hkind (List.mem_map_of_mem hm)
  rw [List.filter_cons_of_pos (by rfl), hothers]

/-- A node that has just the fields of its kind is read as a node of that kind. -/
theorem Node.ofJson?_node (h : members.map (·.1) = Tagged.fields kind) :
    Node.ofJson? nested (node kind members) = some ⟨kind, .ofNode kind members⟩ := by
  have hkind := LawfulTagged.kind_notMem_fields kind
  have hfilter : (("kind", Json.string (Tagged.tag kind)) :: members).filter
      (fun m => (Tagged.fields kind).contains m.1) = members := by
    rw [List.filter_cons_of_neg (by rwa [List.contains_iff_mem]), filter_declared h]
  have hrecord : Record.ofMembers? (Tagged.fields kind) (("kind", .string (Tagged.tag kind)) ::
      members) = some (.ofNode kind members) :=
    Record.ofMembers?_eq hfilter (h ▸ LawfulTagged.nodup_fields kind)
  unfold node Node.ofJson? Tagged.ofJson?
  simp only [filter_kind h, LawfulTagged.ofTag?_tag, hrecord, Option.bind_eq_bind, Option.bind_some]
  rfl

/-- The rest of a reader goes on with the kind and the record of the node. -/
theorem Node.bind_ofJson?_node {α : Type} (h : members.map (·.1) = Tagged.fields kind)
    (f : Node κ (node kind members) → Option α) :
    (Node.ofJson? nested (node kind members) >>= f) = f ⟨kind, .ofNode kind members⟩ := by
  rw [Node.ofJson?_node h]
  rfl

/-- A node is not read as one of a family that does not have its tag. -/
theorem Node.ofJson?_foreign {κ' : Type} [Tagged κ'] (h : members.map (·.1) = Tagged.fields kind)
    (hforeign : (Tagged.ofTag? (Tagged.tag kind) : Option κ') = none) :
    (Node.ofJson? nested (node kind members) : Option (Node κ' _)) = none := by
  unfold node Node.ofJson? Tagged.ofJson?
  simp only [filter_kind h, hforeign, Option.bind_eq_bind, Option.bind_none]

end Nodes

end Scribe.Json

namespace Scribe.Syntax

open Scribe.Json

/-! ## The tables of kinds -/

instance : LawfulTagged TypeKind where
  ofTag?_tag kind := by cases kind <;> decide
  nodup_fields kind := by cases kind <;> decide
  kind_notMem_fields kind := by cases kind <;> decide

instance : LawfulTagged ExprKind where
  ofTag?_tag kind := by cases kind <;> decide
  nodup_fields kind := by cases kind <;> decide
  kind_notMem_fields kind := by cases kind <;> decide

instance : LawfulTagged TargetKind where
  ofTag?_tag kind := by cases kind <;> decide
  nodup_fields kind := by cases kind <;> decide
  kind_notMem_fields kind := by cases kind <;> decide

instance : LawfulTagged StmtKind where
  ofTag?_tag kind := by cases kind <;> decide
  nodup_fields kind := by cases kind <;> decide
  kind_notMem_fields kind := by cases kind <;> decide

instance : LawfulTagged UnaryOp where
  ofTag?_tag op := by cases op <;> decide
  nodup_fields _ := List.nodup_nil
  kind_notMem_fields _ := List.not_mem_nil

instance : LawfulTagged BinaryOp where
  ofTag?_tag op := by cases op <;> decide
  nodup_fields _ := List.nodup_nil
  kind_notMem_fields _ := List.not_mem_nil

/-! ## Leaves -/

theorem asInt64?_toInt (n : Int64) : asInt64? (.int n.toInt) = some n := by
  have hlow : -9223372036854775808 ≤ n.toInt := n.le_toInt
  have hhigh : n.toInt ≤ 9223372036854775807 := n.toInt_le
  exact (if_pos ⟨hlow, hhigh⟩).trans (congrArg some n.ofInt_toInt)

theorem asChar?_singleton (c : Char) : asChar? (.string (String.singleton c)) = some c := by
  simp [asChar?]

theorem operatorOfJson?_toJson {κ : Type} [Tagged κ] [LawfulTagged κ] (op : κ) :
    operatorOfJson? (operatorToJson op) = some op :=
  LawfulTagged.ofTag?_tag op

/-! ## Types -/

theorem typeOfJson?_toJson (nested : Bool) (t : TypeExpr) :
    typeOfJson? nested t.toJson = some t := by
  induction t generalizing nested <;> rw [TypeExpr.toJson, typeOfJson?, Node.bind_ofJson?_node rfl]
  case list item ih | set item ih => simp [ih]
  case map key value ihk ihv => simp [ihk, ihv]
  case model name => simp [asString?]

/-! ## Expressions -/

theorem Expr.toJson_ne_null (e : Expr) : e.toJson ≠ .null := by
  cases e <;> rintro ⟨⟩

mutual

theorem exprOfJson?_toJson (nested : Bool) (e : Expr) :
    exprOfJson? nested e.toJson = some e := by
  cases e <;> rw [Expr.toJson, exprOfJson?, Node.bind_ofJson?_node rfl]
  case bool value => simp [asBool?]
  case int value => simp [asInt64?_toInt]
  case rune value => simp [asChar?_singleton]
  case string name | new name | var name => simp [asString?]
  case list items | set items => simp [exprListOfJson?, exprsOfJson?_toJson items]
  case map entries => simp [entryListOfJson?, entriesOfJson?_toJson entries]
  case emptyList item | emptySet item => simp [typeOfJson?_toJson]
  case emptyMap key value => simp [typeOfJson?_toJson]
  case call target arguments =>
    obtain ⟨_, harguments⟩ := Record.get?_eq (.ofNode ExprKind.call
      [("function", target.toJson), ("arguments", .array (exprsToJson arguments))]) "arguments" rfl
    simp [targetOfJson?_toJson target, harguments, exprListOfJson?, exprsOfJson?_toJson arguments]
  case lookup left right | contains left right =>
    simp [exprOfJson?_toJson true left, exprOfJson?_toJson true right]
  case property receiver name => simp [exprOfJson?_toJson true receiver, asString?]
  case length operand | pop operand => simp [exprOfJson?_toJson true operand]
  case unary op operand => simp [operatorOfJson?_toJson, exprOfJson?_toJson true operand]
  case binary op left right =>
    simp [operatorOfJson?_toJson, exprOfJson?_toJson true left, exprOfJson?_toJson true right]

theorem targetOfJson?_toJson : ∀ target : Target, targetOfJson? target.toJson = some target
  | .function name => by
    rw [Target.toJson, targetOfJson?, Node.bind_ofJson?_node rfl]
    simp [asString?]
  | .method receiver name => by
    rw [Target.toJson, targetOfJson?, Node.bind_ofJson?_node rfl]
    simp [exprOfJson?_toJson true receiver, asString?]

theorem exprsOfJson?_toJson : ∀ es : List Expr, exprsOfJson? (exprsToJson es) = some es
  | [] => by rw [exprsToJson, exprsOfJson?]
  | e :: rest => by
    rw [exprsToJson, exprsOfJson?, exprOfJson?_toJson true e, exprsOfJson?_toJson rest]
    rfl

theorem entriesOfJson?_toJson : ∀ entries : List (Expr × Expr),
    entriesOfJson? (entriesToJson entries) = some entries
  | [] => by rw [entriesToJson, entriesOfJson?]
  | (key, value) :: rest => by
    rw [entriesToJson, entriesOfJson?, entryOfJson?,
      Record.ofJson?_object entryDeclared rfl (by decide), entriesOfJson?_toJson rest]
    simp [exprOfJson?_toJson true key, exprOfJson?_toJson true value]

end

/-! ## Statements -/

theorem Stmt.toJson_ne_null (s : Stmt) : s.toJson ≠ .null := by
  cases s with
  | ret value => cases value <;> rintro ⟨⟩
  | _ => rintro ⟨⟩

/-- A block is read back if its statements are. -/
theorem blockOfJson?_of_stmts {nested : Bool} {block : Block}
    (h : stmtsOfJson? nested (stmtsToJson block) = some block) :
    blockOfJson? nested (.object [("statements", .array (stmtsToJson block))]) = some block := by
  rw [blockOfJson?, Record.ofJson?_object blockDeclared rfl (by decide)]
  obtain ⟨_, hstatements⟩ := Record.get?_eq (.ofObject [("statements", .array (stmtsToJson block))])
    "statements" rfl
  simp [hstatements, stmtListOfJson?, h]

/-- A part that may be missing is found as it was written. -/
theorem optional?_part {j : Json} {r : Record j} {name key : String} {part : Option Stmt}
    (h : r.fields.find? (·.1 == name) = some (key, partToJson part)) :
    (part = none ∧ r.optional? name = none) ∨
      ∃ s hs, part = some s ∧ r.optional? name = some ⟨s.toJson, hs⟩ := by
  cases part with
  | none =>
    rw [partToJson] at h
    exact .inl ⟨rfl, Record.optional?_eq_none r name h⟩
  | some s =>
    rw [partToJson] at h
    obtain ⟨hs, hpart⟩ := Record.optional?_eq r name h s.toJson_ne_null
    exact .inr ⟨s, hs, rfl, hpart⟩

mutual

theorem stmtOfJson?_toJson (nested : Bool) : ∀ s : Stmt, stmtOfJson? nested s.toJson = some s
  | .declare name value => by
    rw [Stmt.toJson, stmtOfJson?, Node.bind_ofJson?_node rfl]
    simp [asString?, exprOfJson?_toJson]
  | .assign left right | .add left right | .push left right => by
    rw [Stmt.toJson, stmtOfJson?, Node.bind_ofJson?_node rfl]
    simp [exprOfJson?_toJson]
  | .conditional arms none => by
    rw [Stmt.toJson, stmtOfJson?, Node.bind_ofJson?_node rfl]
    have hotherwise := Record.optional?_eq_none (.ofNode StmtKind.conditional
      [("ifs", .array (armsToJson arms)), ("else_block", otherwiseToJson none)]) "else_block" rfl
    simp [armListOfJson?, armsOfJson?_toJson arms, hotherwise]
  | .conditional arms (some block) => by
    have hblock : blockOfJson? true (otherwiseToJson (some block)) = some block := by
      rw [otherwiseToJson, blockOfJson?_of_stmts (stmtsOfJson?_toJson true block)]
    rw [Stmt.toJson, stmtOfJson?, Node.bind_ofJson?_node rfl]
    obtain ⟨_, hotherwise⟩ := Record.optional?_eq (.ofNode StmtKind.conditional
      [("ifs", .array (armsToJson arms)), ("else_block", otherwiseToJson (some block))])
      "else_block" rfl (by rintro ⟨⟩)
    simp [armListOfJson?, armsOfJson?_toJson arms, hotherwise, hblock]
  | .forLoop start condition after body => by
    have hbody := blockOfJson?_of_stmts (stmtsOfJson?_toJson true body)
    have hstarts := partOfJson?_toJson start
    have hafters := partOfJson?_toJson after
    rw [Stmt.toJson, stmtOfJson?, Node.bind_ofJson?_node rfl]
    let r := Record.ofNode StmtKind.forLoop
      [("initialization", partToJson start), ("condition", condition.toJson),
        ("after_each", partToJson after),
        ("block", .object [("statements", .array (stmtsToJson body))])]
    have hstart := optional?_part (show r.fields.find? (·.1 == "initialization") = _ from rfl)
    have hafter := optional?_part (show r.fields.find? (·.1 == "after_each") = _ from rfl)
    obtain ⟨rfl, hstart⟩ | ⟨s, _, rfl, hstart⟩ := hstart <;>
      obtain ⟨rfl, hafter⟩ | ⟨s', _, rfl, hafter⟩ := hafter <;>
      simp [r, exprOfJson?_toJson, hbody, hstart, hafter, hstarts, hafters]
  | .forEach item iterable body => by
    have hbody := blockOfJson?_of_stmts (stmtsOfJson?_toJson true body)
    rw [Stmt.toJson, stmtOfJson?, Node.bind_ofJson?_node rfl]
    simp [asString?, exprOfJson?_toJson, hbody]
  | .ret none => by
    rw [Stmt.toJson, stmtOfJson?, Node.bind_ofJson?_node rfl]
    have hvalue := Record.optional?_eq_none (.ofNode StmtKind.ret [("value", .null)]) "value" rfl
    simp [hvalue]
  | .ret (some value) => by
    rw [Stmt.toJson, stmtOfJson?, Node.bind_ofJson?_node rfl]
    obtain ⟨_, hvalue⟩ := Record.optional?_eq (.ofNode StmtKind.ret [("value", value.toJson)])
      "value" rfl value.toJson_ne_null
    simp [hvalue, exprOfJson?_toJson]
  | .brk | .cont => by
    rw [Stmt.toJson, stmtOfJson?, Node.bind_ofJson?_node rfl]
  | .pop list => by
    rw [Stmt.toJson, stmtOfJson?, Node.bind_ofJson?_node rfl]
    simp [exprOfJson?_toJson]
  | .call target arguments => by
    rw [Stmt.toJson, stmtOfJson?, Node.bind_ofJson?_node rfl]
    obtain ⟨_, harguments⟩ := Record.get?_eq (.ofNode StmtKind.call
      [("function", target.toJson), ("arguments", .array (exprsToJson arguments))]) "arguments" rfl
    simp [targetOfJson?_toJson, harguments, exprListOfJson?, exprsOfJson?_toJson]

theorem stmtsOfJson?_toJson (nested : Bool) : ∀ block : List Stmt,
    stmtsOfJson? nested (stmtsToJson block) = some block
  | [] => by rw [stmtsToJson, stmtsOfJson?]
  | s :: rest => by
    rw [stmtsToJson, stmtsOfJson?, stmtOfJson?_toJson nested s, stmtsOfJson?_toJson nested rest]
    rfl

theorem partOfJson?_toJson : ∀ part : Option Stmt, ∀ s ∈ part, stmtOfJson? true s.toJson = some s
  | none => by rintro s ⟨⟩
  | some s => by
    rintro _ ⟨⟩
    exact stmtOfJson?_toJson true s

theorem armsOfJson?_toJson : ∀ arms : List (Expr × List Stmt),
    armsOfJson? (armsToJson arms) = some arms
  | [] => by rw [armsToJson, armsOfJson?]
  | (condition, block) :: rest => by
    have hblock := blockOfJson?_of_stmts (stmtsOfJson?_toJson true block)
    rw [armsToJson, armsOfJson?, armOfJson?, Record.ofJson?_object armDeclared rfl (by decide),
      armsOfJson?_toJson rest]
    simp [exprOfJson?_toJson, hblock]

end

/-! ## Definitions -/

theorem blockOfJson?_toJson (nested : Bool) (block : Block) :
    blockOfJson? nested (blockToJson block) = some block :=
  blockOfJson?_of_stmts (stmtsOfJson?_toJson nested block)

section Parts

variable {j : Json} (r : Record j) (name : String) {α : Type} {read : Json → Option α}

theorem field?_eq :
    field? r name read = ((r.fields.find? (·.1 == name)).map (·.2)).bind read := by
  simp [field?]

theorem listField?_eq : listField? r name read =
    match (r.fields.find? (·.1 == name)).map (·.2) with
    | none => some []
    | some (.array items) => items.mapM read
    | some _ => none := by
  rw [← Record.unattach_get?, listField?]
  rcases r.get? name with _ | ⟨_ | _, _⟩ <;> rfl

/-- A part that was written is read back, and a missing one is not read. -/
theorem optionField?_eq {write : α → Json} {key : String} {part : Option α}
    (h : r.fields.find? (·.1 == name) = some (key, (part.map write).getD .null))
    (hread : ∀ a, read (write a) = some a) (hwrite : ∀ a, write a ≠ .null) :
    optionField? r name read = some part := by
  cases part with
  | none => rw [optionField?, Record.optional?_eq_none r name h]
  | some a =>
    obtain ⟨_, hget⟩ := Record.optional?_eq r name h (hwrite a)
    rw [optionField?, hget]
    exact congrArg (some <$> ·) (hread a)

theorem mapM_read_map_write {write : α → Json} (hread : ∀ a, read (write a) = some a)
    (items : List α) : (items.map write).mapM read = some items := by
  induction items with
  | nil => rfl
  | cons a rest ih =>
    rw [List.map_cons, List.mapM_cons, hread, ih]
    rfl

end Parts

theorem Constant.ofJson?_toJson (c : Constant) : Constant.ofJson? c.toJson = some c := by
  rw [Constant.toJson, Constant.ofJson?, Record.ofJson?_object declared rfl (by decide)]
  simp [field?_eq, asString?, exprOfJson?_toJson]

theorem Parameter.ofJson?_toJson (p : Parameter) : Parameter.ofJson? p.toJson = some p := by
  rw [Parameter.toJson, Parameter.ofJson?, Record.ofJson?_object declared rfl (by decide)]
  simp [field?_eq, asString?, typeOfJson?_toJson]

theorem Function.ofJson?_toJson (f : Function) : Function.ofJson? f.toJson = some f := by
  have hparameters := mapM_read_map_write Parameter.ofJson?_toJson f.parameters
  rw [Function.toJson, Function.ofJson?, Record.ofJson?_object declared rfl (by decide)]
  simp [field?_eq, listField?_eq, asString?, typeOfJson?_toJson, blockOfJson?_toJson, hparameters]

theorem Field.ofJson?_toJson (f : Field) : Field.ofJson? f.toJson = some f := by
  rw [Field.toJson, Field.ofJson?, Record.ofJson?_object declared rfl (by decide)]
  simp [field?_eq, asString?, typeOfJson?_toJson]

theorem Equality.ofJson?_toJson (e : Equality) : Equality.ofJson? e.toJson = some e := by
  rw [Equality.toJson, Equality.ofJson?, Record.ofJson?_object declared rfl (by decide)]
  simp [field?_eq, asString?, blockOfJson?_toJson]

theorem hashingOfJson?_toJson (body : Block) : hashingOfJson? (hashingToJson body) = some body := by
  rw [hashingToJson, hashingOfJson?, Record.ofJson?_object hashingDeclared rfl (by decide)]
  simp [field?_eq, blockOfJson?_toJson]

theorem Model.ofJson?_toJson (m : Model) : Model.ofJson? m.toJson = some m := by
  have hfields := mapM_read_map_write Field.ofJson?_toJson m.fields
  have hmethods := mapM_read_map_write Function.ofJson?_toJson m.methods
  rw [Model.toJson, Model.ofJson?, Record.ofJson?_object declared rfl (by decide)]
  let r := Record.ofObject [("name", .string m.name),
    ("fields", .array (m.fields.map Field.toJson)),
    ("methods", .array (m.methods.map Function.toJson)),
    ("equal_override", (m.equality.map Equality.toJson).getD .null),
    ("hash_override", (m.hashing.map hashingToJson).getD .null)]
  have hequality := optionField?_eq r "equal_override" rfl Equality.ofJson?_toJson (by rintro _ ⟨⟩)
  have hhashing := optionField?_eq r "hash_override" rfl hashingOfJson?_toJson (by rintro _ ⟨⟩)
  simp [field?_eq, listField?_eq, asString?, hfields, hmethods, r, hequality, hhashing]

theorem Module.ofJson?_toJson (m : Module) : Module.ofJson? m.toJson = some m := by
  have hconstants := mapM_read_map_write Constant.ofJson?_toJson m.constants
  have hfunctions := mapM_read_map_write Function.ofJson?_toJson m.functions
  have hmodels := mapM_read_map_write Model.ofJson?_toJson m.models
  rw [Module.toJson, Module.ofJson?, Record.ofJson?_object declared rfl (by decide)]
  simp [field?_eq, listField?_eq, asString?, hconstants, hfunctions, hmodels]

/-! ## Calls and their targets -/

theorem targetOfJson?_exprCall (target : Target) (arguments : List Expr) :
    targetOfJson? (Expr.call target arguments).toJson = none := by
  rw [Expr.toJson, targetOfJson?, Node.ofJson?_foreign rfl (by decide)]
  rfl

theorem targetOfJson?_stmtCall (target : Target) (arguments : List Expr) :
    targetOfJson? (Stmt.call target arguments).toJson = none := by
  rw [Stmt.toJson, targetOfJson?, Node.ofJson?_foreign rfl (by decide)]
  rfl

theorem stmtOfJson?_target (nested : Bool) (target : Target) :
    stmtOfJson? nested target.toJson = none := by
  cases target <;> rw [Target.toJson, stmtOfJson?, Node.ofJson?_foreign rfl (by decide)] <;> rfl

/-- A method as the target of a call is written like the property of an object. -/
theorem exprOfJson?_target (nested : Bool) (target : Target) :
    exprOfJson? nested target.toJson = none ∨
      ∃ receiver name, exprOfJson? nested target.toJson = some (.property receiver name) := by
  cases target with
  | function name =>
    left
    rw [Target.toJson, exprOfJson?, Node.ofJson?_foreign rfl (by decide)]
    rfl
  | method receiver name =>
    refine .inr ⟨receiver, name, ?_⟩
    have hproperty := exprOfJson?_toJson nested (.property receiver name)
    rw [Expr.toJson] at hproperty
    rw [Target.toJson]
    exact hproperty

/-- What is written of a module is read back as that module, and what is written of a statement, an
expression or the target of a call is read back where such a node is expected. A call and a method
as its target are written with tags that also stand for other nodes: a call is never read as a
target, and a target neither as a statement nor as a call. -/
theorem Module.reading_undoes_writing :
    (∀ m : Module, Module.ofJson? m.toJson = some m) ∧
    (∀ nested (s : Stmt), stmtOfJson? nested s.toJson = some s) ∧
    (∀ nested (e : Expr), exprOfJson? nested e.toJson = some e) ∧
    (∀ target : Target, targetOfJson? target.toJson = some target) ∧
    (Stmt.ret none).toJson ≠ (Stmt.ret (some .null)).toJson ∧
    (∀ target arguments, targetOfJson? (Expr.call target arguments).toJson = none ∧
      targetOfJson? (Stmt.call target arguments).toJson = none) ∧
    (∀ nested (target : Target), stmtOfJson? nested target.toJson = none ∧
      ∀ target' arguments, exprOfJson? nested target.toJson ≠ some (.call target' arguments)) := by
  refine ⟨Module.ofJson?_toJson, stmtOfJson?_toJson, exprOfJson?_toJson, targetOfJson?_toJson, ?_,
    fun target arguments => ⟨targetOfJson?_exprCall target arguments,
      targetOfJson?_stmtCall target arguments⟩,
    fun nested target => ⟨stmtOfJson?_target nested target, ?_⟩⟩
  · rintro ⟨⟩
  · intro target' arguments hcall
    obtain hnone | ⟨receiver, name, hproperty⟩ := exprOfJson?_target nested target
    · cases hnone.symm.trans hcall
    · cases hproperty.symm.trans hcall

end Scribe.Syntax
