import Scribe.Core.Dump
import Scribe.Proofs.Names

/-!
# The lines of a program's text

The text of a program is an outline: one line for each construct, and below it, one level deeper,
the lines of what it holds. Split at its line breaks, the text of a lowered program gives exactly
these lines (`dump_lines`), because no text of a construct has a line break in it: names are
checked, literals are quoted, and the parts of a loop stand in its head.
-/

namespace Scribe.Text

/-! ## Literals -/

theorem flat_toDigits {b : Nat} (hb : 1 < b) (n : Nat) : '\n' ∉ Nat.toDigits b n := by
  have hdigit (d : Nat) : '\n' ≠ d.digitChar := (Nat.digitChar_ne _ (by decide)).symm
  induction n using Nat.strong_induction_on with
  | h n ih =>
    rw [Nat.toDigits_eq_if hb]
    split
    · simp [hdigit]
    · next hle => simp [hdigit, ih _ (Nat.div_lt_self (by omega) hb)]

theorem flat_toString (n : Int) : Flat (toString n) := by
  show Flat n.repr
  rw [Int.repr_eq_if]
  split <;> simp [flat_toDigits]

theorem flat_quoteWith {quote : Char} (hquote : quote ≠ '\n') (cs : List Char) :
    Flat (quoteWith quote cs) := by
  have hescape (c : Char) : '\n' ∉ escapeChar quote c := by
    have hdigits := flat_toDigits (show 1 < 16 by decide) c.toNat
    unfold escapeChar
    split_ifs <;> simp [codePointEscape, hquote.symm, eq_comm, *]
  simp [quoteWith, hquote.symm, hescape]

end Scribe.Text

namespace Scribe.Core

open Scribe.Text

theorem flat_commaSeparated {texts : List String} (h : ∀ t ∈ texts, Flat t) :
    Flat (commaSeparated texts) := by
  rw [flat_iff, commaSeparated, String.toList_intercalate]
  induction texts with
  | nil => simp
  | cons t rest ih =>
    obtain ⟨ht, hrest⟩ := List.forall_mem_cons.mp h
    cases rest with
    | nil => simpa using ht
    | cons => simpa [List.intercalate, ht] using ih hrest

theorem flat_trimEnd {text : String} (h : Flat text) : Flat (trimEnd text) := by
  rw [flat_iff, trimEnd, String.toList_ofList, List.mem_reverse]
  intro hmem
  exact h (List.mem_reverse.mp ((List.dropWhile_sublist _).subset hmem))

namespace Program

/-! ## Names and expressions -/

theorem exprTexts_eq_map (p : Program) (es : List Expr) :
    p.exprTexts es = es.map p.exprText := by
  induction es with
  | nil => rfl
  | cons e rest ih => rw [exprTexts, List.map_cons, ih]

theorem entryTexts_eq_map (p : Program) (entries : List (Expr × Expr)) :
    p.entryTexts entries = entries.map fun e => p.exprText e.1 ++ ": " ++ p.exprText e.2 := by
  induction entries with
  | nil => rfl
  | cons e rest ih => rw [entryTexts, List.map_cons, ih]

section Named

variable {p : Program} (hp : p.Named)

include hp

theorem flat_definitionName (d : Definition) : Flat (p.definitionName d) := by
  unfold definitionName
  cases hd : p.definitionName? d with
  | none => simp
  | some name => exact hp.flat_definition hd

theorem flat_functionName (id : FunctionId) : Flat (p.functionName id) := by
  unfold functionName
  cases hf : p.getFunction? id with
  | none => simp
  | some f => exact (hp.functions f (Array.mem_of_getElem? hf)).1

theorem flat_typeName (t : Ty) : Flat (p.typeName t) := by
  suffices h : ∀ text, p.typeName? t = some text → Flat text by
    unfold typeName
    cases ht : p.typeName? t with
    | none => simp
    | some text => exact h text ht
  induction t with
  | primitive t =>
    rintro _ ⟨⟩
    cases t <;> simp [Primitive.name]
  | list item ih | set item ih =>
    intro text h
    obtain ⟨x, hx, ⟨⟩⟩ := Option.bind_eq_some_iff.mp h
    simp [ih x hx]
  | map key value ihk ihv =>
    intro text h
    obtain ⟨x, hx, h'⟩ := Option.bind_eq_some_iff.mp h
    obtain ⟨y, hy, ⟨⟩⟩ := Option.bind_eq_some_iff.mp h'
    simp [ihk x hx, ihv y hy]
  | model id =>
    intro text h
    obtain ⟨m, hm, rfl⟩ := Option.map_eq_some_iff.mp h
    exact (hp.models m (Array.mem_of_getElem? hm)).1

theorem flat_callText {receiver : Option Expr} {arguments : List Expr}
    (h : ∀ e ∈ receiver.toList ++ arguments, Flat (p.exprText e))
    (function : FunctionId) :
    Flat (p.callText (p.receiverText receiver) (p.exprTexts arguments) function) := by
  obtain ⟨hreceiver, harguments⟩ := List.forall_mem_append.mp h
  have hlist := flat_commaSeparated (List.forall_mem_map.mpr harguments)
  rw [← exprTexts_eq_map] at hlist
  have hname := flat_functionName hp function
  cases receiver with
  | none => simp [callText, receiverText, hname, hlist]
  | some r => simp [callText, receiverText, hname, hlist, hreceiver r List.mem_cons_self]

/-- An expression stands on one line, whatever its literals are. -/
theorem flat_exprText (e : Expr) : Flat (p.exprText e) := by
  induction e using Expr.nodeInduction with
  | h e ih =>
  have htype := flat_typeName hp
  have hname := flat_definitionName hp
  cases e with
  | bool value => cases value <;> simp [exprText, toString]
  | int value => exact flat_toString _
  | rune value | string value => exact flat_quoteWith (by decide) _
  | list items item | set items item =>
    have hitems := flat_commaSeparated (List.forall_mem_map.mpr ih)
    rw [Expr.children, ← exprTexts_eq_map] at hitems
    simp [exprText, hitems]
  | map entries key value =>
    have hentries : Flat (commaSeparated (p.entryTexts entries)) := by
      rw [entryTexts_eq_map]
      refine flat_commaSeparated (List.forall_mem_map.mpr fun x hx => ?_)
      obtain ⟨hkey, hvalue⟩ := Expr.mem_children_map hx key value
      simp [ih x.1 hkey, ih x.2 hvalue]
    simp [exprText, hentries]
  | call receiver arguments function => exact flat_callText hp ih function
  | unary op operand =>
    have hoperand := ih operand List.mem_cons_self
    cases op <;> simp [exprText, unaryText, UnaryOp.symbol, UnaryOp.isSign, hoperand]
  | binary op left right =>
    simp only [Expr.children, List.forall_mem_cons] at ih
    cases op <;> simp [exprText, BinaryOp.symbol, ih]
  | lookup | property | contains | length | pop =>
    simp only [Expr.children, List.forall_mem_cons] at ih
    simp [exprText, ih, hname]
  | _ => simp [exprText, htype, hname]

/-! ## Statements and heads -/

theorem flat_stmtText (s : Stmt) : Flat (p.stmtText s) := by
  have hexpr := flat_exprText hp
  cases s with
  | declare id value =>
    have hname : Flat (p.localName id) := flat_definitionName hp (.binding id)
    have htype : Flat (((p.getLocal? id).map fun l => p.typeName l.type).getD "") := by
      cases p.getLocal? id with
      | none => simp
      | some l => exact flat_typeName hp l.type
    simp [stmtText, hname, htype, hexpr]
  | ret value => cases value <;> simp [stmtText, hexpr]
  | call receiver arguments function =>
    exact flat_callText hp (fun e _ => hexpr e) function
  | _ => simp [stmtText, hexpr]

theorem flat_headText {f : Function} (hf : f ∈ p.functions) :
    Flat (p.headText f) := by
  obtain ⟨hname, hparameters⟩ := hp.functions f hf
  have htype := flat_typeName hp
  have hlist : Flat (commaSeparated
      (f.parameters.map fun q => q.name ++ ": " ++ p.typeName q.type)) := by
    refine flat_commaSeparated (List.forall_mem_map.mpr fun q hq => ?_)
    simp [(hparameters q hq), htype]
  unfold headText
  split <;> simp [hname, hlist, htype]

end Named

end Program

/-! ## The outline -/

/-- What a line stands for. -/
inductive Construct where
  | module
  | constant (c : Constant)
  | model (m : Model)
  | field (f : Field)
  | function (f : Function)
  | equality (e : Equality)
  | hashing
  | simple (s : Stmt)
  | forLoop (start : Option Stmt) (condition : Expr) (after : Option Stmt)
  | forEach (item : LocalId) (iterable : Expr)
  | arm (first : Bool) (condition : Expr)
  | otherwise

/-- The text of a construct, without what stands below it. -/
def Construct.text (p : Program) : Construct → String
  | .module => "module " ++ p.name
  | .constant c => (p.constantLine c).text
  | .model m => "model " ++ m.name
  | .field f => "field " ++ f.name ++ ": " ++ p.typeName f.type
  | .function f => p.headText f
  | .equality e => "equal(" ++ p.localName e.other ++ ")"
  | .hashing => "hash"
  | .simple s => p.stmtText s
  | .forLoop start condition after => p.forText start condition after
  | .forEach item iterable => "for " ++ p.localName item ++ " in " ++ p.exprText iterable
  | .arm first condition => (if first then "if " else "else if ") ++ p.exprText condition
  | .otherwise => "else"

/-- A construct and what it holds. -/
inductive Item where
  | node (construct : Construct) (parts : List Item)

mutual

/-- The line of a construct, then those of its parts, one level deeper. -/
def Item.lines (p : Program) (depth : Nat) : Item → List Line
  | .node construct parts => ⟨depth, construct.text p⟩ :: itemLines p (depth + 1) parts

def itemLines (p : Program) (depth : Nat) : List Item → List Line
  | [] => []
  | item :: rest => item.lines p depth ++ itemLines p depth rest

end

theorem itemLines_eq_flatMap (p : Program) (depth : Nat) (items : List Item) :
    itemLines p depth items = items.flatMap (Item.lines p depth) := by
  induction items with
  | nil => rfl
  | cons x xs ih => rw [itemLines, List.flatMap_cons, ih]

theorem itemLines_append (p : Program) (depth : Nat) (xs ys : List Item) :
    itemLines p depth (xs ++ ys) = itemLines p depth xs ++ itemLines p depth ys := by
  simp only [itemLines_eq_flatMap, List.flatMap_append]

theorem itemLines_leaves (p : Program) (depth : Nat) {α : Type} (f : α → Construct) (xs : List α) :
    itemLines p depth (xs.map fun x => .node (f x) []) = xs.map fun x => ⟨depth, (f x).text p⟩ := by
  induction xs with
  | nil => rfl
  | cons x xs ih =>
    rw [List.map_cons, List.map_cons, itemLines, ih]
    rfl

mutual

/-- A statement: its line with its block below it, or its arms. -/
def Stmt.items : Stmt → List Item
  | .conditional arms otherwise => armItems true arms ++ otherwiseItems otherwise
  | .forLoop start condition after body =>
    [.node (.forLoop start condition after) (blockItems body)]
  | .forEach item iterable _ _ body => [.node (.forEach item iterable) (blockItems body)]
  | s => [.node (.simple s) []]

def blockItems : List Stmt → List Item
  | [] => []
  | s :: rest => s.items ++ blockItems rest

def armItems (first : Bool) : List (Expr × List Stmt) → List Item
  | [] => []
  | (condition, block) :: rest =>
    .node (.arm first condition) (blockItems block) :: armItems false rest

def otherwiseItems : Option (List Stmt) → List Item
  | none => []
  | some block => [.node .otherwise (blockItems block)]

end

namespace Program

def functionItem (f : Function) : Item :=
  .node (.function f) (blockItems f.body)

/-- A model holds its fields, its methods and its overrides. -/
def modelItem (p : Program) (m : Model) : Item :=
  .node (.model m)
    (m.fields.map (fun f => .node (.field f) []) ++
      (m.methods.filterMap fun x => p.getFunction? x.function).map functionItem ++
      m.equality.toList.map (fun e => .node (.equality e) (blockItems e.body)) ++
      m.hashing.toList.map fun body => .node .hashing (blockItems body))

/-- The constructs of a program: itself, its constants, its models and its free functions. -/
def outline (p : Program) : List Item :=
  .node .module [] :: (p.constants.toList.map (fun c => .node (.constant c) []) ++
    p.models.toList.map p.modelItem ++ (p.freeFunctions.filterMap p.getFunction?).map functionItem)

end Program

mutual

theorem stmtLines_eq (p : Program) (depth : Nat) (s : Stmt) :
    p.stmtLines depth s = itemLines p depth s.items := by
  cases s with
  | conditional arms otherwise =>
    cases arms with
    | nil => exact otherwiseLines_eq p depth otherwise
    | cons arm arms =>
      simp only [Program.stmtLines, Stmt.items, armItems, itemLines, List.cons_append, Item.lines,
        itemLines_append, blockLines_eq, armLines_eq, otherwiseLines_eq, List.append_assoc]
      rfl
  | forLoop | forEach =>
    simp [Program.stmtLines, Stmt.items, itemLines, Item.lines, Construct.text, blockLines_eq]
  | _ => rfl

theorem blockLines_eq (p : Program) (depth : Nat) (block : List Stmt) :
    p.blockLines depth block = itemLines p depth (blockItems block) := by
  cases block with
  | nil => rfl
  | cons s rest =>
    rw [Program.blockLines, blockItems, itemLines_append, stmtLines_eq, blockLines_eq]

theorem armLines_eq (p : Program) (depth : Nat) (arms : List (Expr × List Stmt)) :
    p.armLines depth arms = itemLines p depth (armItems false arms) := by
  cases arms with
  | nil => rfl
  | cons arm rest =>
    simp only [Program.armLines, armItems, itemLines, Item.lines, blockLines_eq, armLines_eq]
    rfl

theorem otherwiseLines_eq (p : Program) (depth : Nat) (otherwise : Option (List Stmt)) :
    p.otherwiseLines depth otherwise = itemLines p depth (otherwiseItems otherwise) := by
  cases otherwise with
  | none => rfl
  | some block =>
    simp [Program.otherwiseLines, otherwiseItems, itemLines, Item.lines, Construct.text,
      blockLines_eq]

end

/-- The lines of a program are those of its outline. -/
theorem lines_eq (p : Program) : p.lines = itemLines p 0 p.outline := by
  have hfunctions (depth : Nat) (ids : List FunctionId) : ids.flatMap (p.functionLines depth) =
      itemLines p depth ((ids.filterMap p.getFunction?).map Program.functionItem) := by
    induction ids with
    | nil => rfl
    | cons id ids ih =>
      rw [List.flatMap_cons, ih, Program.functionLines]
      cases hf : p.getFunction? id with
      | none =>
        rw [List.filterMap_cons_none hf]
        rfl
      | some f =>
        simp only [List.filterMap_cons_some hf, List.map_cons, itemLines, Program.functionItem,
          Item.lines, blockLines_eq]
        rfl
  have hmodel (m : Model) : p.modelLines m = (p.modelItem m).lines p 0 := by
    have hmethods := hfunctions 1 (m.methods.map (·.function))
    rw [List.flatMap_map, List.filterMap_map] at hmethods
    rw [Program.modelLines, Program.modelItem, Item.lines, itemLines_append, itemLines_append,
      itemLines_append, itemLines_leaves, hmethods]
    cases m.equality <;> cases m.hashing <;>
      simp [itemLines, Item.lines, Program.equalityLines, Program.hashingLines, blockLines_eq,
        Construct.text]
  have hmodels : p.models.toList.flatMap p.modelLines =
      itemLines p 0 (p.models.toList.map p.modelItem) := by
    rw [itemLines_eq_flatMap, List.flatMap_map]
    exact List.flatMap_congr fun m _ => hmodel m
  rw [Program.lines, Program.outline, itemLines, itemLines_append, itemLines_append,
    itemLines_leaves, hmodels, hfunctions]
  rfl

/-! ## One line for each construct -/

mutual

theorem flat_stmtLines {p : Program} (hp : p.Named) (depth : Nat) (s : Stmt) :
    ∀ l ∈ p.stmtLines depth s, Flat l.text := by
  have hexpr := p.flat_exprText hp
  have hname (id : LocalId) : Flat (p.localName id) :=
    p.flat_definitionName hp (.binding id)
  cases s with
  | conditional arms otherwise =>
    have hotherwise := flat_otherwiseLines hp depth otherwise
    cases arms with
    | nil => exact hotherwise
    | cons arm arms =>
      simp only [Program.stmtLines, List.forall_mem_cons, List.forall_mem_append]
      exact ⟨by simp [hexpr],
        ⟨flat_blockLines hp _ arm.2, flat_armLines hp depth arms⟩, hotherwise⟩
  | forLoop start condition after body =>
    refine List.forall_mem_cons.mpr ⟨?_, flat_blockLines hp _ body⟩
    have hstmt := p.flat_stmtText hp
    refine flat_trimEnd ?_
    cases start <;> cases after <;> simp [hstmt, hexpr]
  | forEach item iterable kind itemType body =>
    exact List.forall_mem_cons.mpr ⟨by simp [hname, hexpr], flat_blockLines hp _ body⟩
  | _ => exact List.forall_mem_singleton.mpr (p.flat_stmtText hp _)

theorem flat_blockLines {p : Program} (hp : p.Named) (depth : Nat) (block : List Stmt) :
    ∀ l ∈ p.blockLines depth block, Flat l.text := by
  cases block with
  | nil => exact List.forall_mem_nil _
  | cons s rest =>
    exact List.forall_mem_append.mpr
      ⟨flat_stmtLines hp depth s, flat_blockLines hp depth rest⟩

theorem flat_armLines {p : Program} (hp : p.Named) (depth : Nat)
    (arms : List (Expr × List Stmt)) : ∀ l ∈ p.armLines depth arms, Flat l.text := by
  cases arms with
  | nil => exact List.forall_mem_nil _
  | cons arm rest =>
    refine List.forall_mem_cons.mpr ⟨by simp [p.flat_exprText hp], ?_⟩
    exact List.forall_mem_append.mpr
      ⟨flat_blockLines hp _ arm.2, flat_armLines hp depth rest⟩

theorem flat_otherwiseLines {p : Program} (hp : p.Named) (depth : Nat)
    (otherwise : Option (List Stmt)) : ∀ l ∈ p.otherwiseLines depth otherwise, Flat l.text := by
  cases otherwise with
  | none => exact List.forall_mem_nil _
  | some block => exact List.forall_mem_cons.mpr ⟨by simp, flat_blockLines hp _ block⟩

end

/-- No line of a program has a line break in it. -/
theorem flat_lines {p : Program} (hp : p.Named) :
    ∀ l ∈ p.lines, Flat l.text := by
  have htype := p.flat_typeName hp
  have hblock := flat_blockLines hp
  have hfunctions (depth : Nat) (ids : List FunctionId) :
      ∀ l ∈ ids.flatMap (p.functionLines depth), Flat l.text := by
    intro l hl
    obtain ⟨id, _, hl⟩ := List.mem_flatMap.mp hl
    unfold Program.functionLines at hl
    split at hl
    · next f hf =>
      rcases List.mem_cons.mp hl with rfl | hl
      · exact p.flat_headText hp (Array.mem_of_getElem? hf)
      · exact hblock _ _ l hl
    · cases hl
  have hmodel (m : Model) (hm : m ∈ p.models) :
      ∀ l ∈ p.modelLines m, Flat l.text := by
    obtain ⟨hname, hfields⟩ := hp.models m hm
    have hmethods := hfunctions 1 (m.methods.map (·.function))
    rw [List.flatMap_map] at hmethods
    simp only [Program.modelLines, List.forall_mem_cons, List.forall_mem_append,
      List.forall_mem_map]
    refine ⟨by simp [hname], ⟨⟨fun f hf => by simp [(hfields f hf), htype], hmethods⟩,
      ?_⟩, ?_⟩
    · cases m.equality with
      | none => exact List.forall_mem_nil _
      | some e =>
        have hother : Flat (p.localName e.other) :=
          p.flat_definitionName hp (.binding e.other)
        exact List.forall_mem_cons.mpr ⟨by simp [hother], hblock 2 e.body⟩
    · cases m.hashing with
      | none => exact List.forall_mem_nil _
      | some body => exact List.forall_mem_cons.mpr ⟨by simp, hblock 2 body⟩
  simp only [Program.lines, List.forall_mem_cons, List.forall_mem_append, List.forall_mem_map]
  refine ⟨by simp [hp.name], ⟨fun c hc => ?_, fun l hl => ?_⟩, hfunctions 0 _⟩
  · have hname := hp.constants c (Array.mem_toList_iff.mp hc)
    simp [Program.constantLine, hname, htype, p.flat_exprText hp]
  · obtain ⟨m, hm, hl⟩ := List.mem_flatMap.mp hl
    exact hmodel m (Array.mem_toList_iff.mp hm) l hl

/-- A line as it stands in the text, without its line break. -/
def Line.chars (l : Line) : List Char :=
  List.replicate (2 * l.depth) ' ' ++ l.text.toList

/-- Split at its line breaks, a text of lines gives these lines, and nothing after the last line
break. -/
theorem splitOn_render {ls : List Line} (h : ∀ l ∈ ls, Flat l.text) :
    (String.join (ls.map Line.render)).toList.splitOn '\n' = ls.map Line.chars ++ [[]] := by
  induction ls with
  | nil => simp [String.join]
  | cons l ls ih =>
    obtain ⟨hl, hls⟩ := List.forall_mem_cons.mp h
    have hline : ∀ c ∈ l.chars, (c == '\n') = false := by
      intro c hc
      rw [beq_eq_false_iff_ne]
      rintro rfl
      simp [Line.chars, hl] at hc
    have htext : (String.join ((l :: ls).map Line.render)).toList =
        l.chars ++ '\n' :: (String.join (ls.map Line.render)).toList := by
      simp [Line.render, Line.chars]
    rw [htext, List.splitOn, List.splitOnP_append_cons_of_forall_mem hline _ (by decide)]
    exact congrArg (l.chars :: ·) (ih hls)

end Scribe.Core

namespace Scribe.Lowering

open Scribe.Core

/-- The text of a lowered program, split at its line breaks, is its outline: a line for each
construct, indented by two blanks for each level. Every free function and every method has its place
there. -/
theorem dump_lines {m : Syntax.Module} {limit : Option Nat} {p : Program}
    (h : lower m limit = .ok p) :
    p.dump.toList.splitOn '\n' = (itemLines p 0 p.outline).map Line.chars ++ [[]] ∧
      (∀ id ∈ p.freeFunctions, ∃ f, p.getFunction? id = some f) ∧
      ∀ model ∈ p.models, ∀ x ∈ model.methods, ∃ f, p.getFunction? x.function = some f := by
  refine ⟨?_, fun id hid => ?_, fun model hmodel x hx => ?_⟩
  · rw [Program.dump, ← lines_eq]
    exact splitOn_render (flat_lines (lower_named h))
  · obtain ⟨f, hf, _⟩ := (Program.mem_freeFunctions (lower_pending h).signatures.indexed).mp hid
    exact ⟨f, hf⟩
  · obtain ⟨i, hi⟩ := Array.mem_iff_getElem?.mp hmodel
    have hget : p.getModel? ⟨i⟩ = some model := hi
    obtain ⟨f, hf, _⟩ := (lower_pending h).signatures.methods hget x hx
    exact ⟨f, hf⟩

/-- A module with a line break in a literal and a loop that binds a name. -/
def noteModule : Syntax.Module where
  name := "Notes"
  constants := [⟨"greeting", .string "hello\nworld"⟩]
  functions := [
    { name := "count"
      parameters := []
      returnType := .void
      body := [.forLoop (some (.declare "i" (.int 0))) (.binary .lessThan (.var "i") (.int 3)) none
        [.brk]] }]
  models := []

/-- The program of `noteModule`. -/
def noteProgram : Program where
  name := "Notes"
  constants := #[⟨"greeting", .string "hello\nworld", .string⟩]
  functions := #[
    { name := "count"
      parameters := []
      returnType := .void
      owner := none
      body := [.forLoop (some (.declare ⟨0⟩ (.int 0)))
        (.binary .lessThan (.var (.binding ⟨0⟩) .int) (.int 3) .bool) none [.brk]] }]
  locals := #[⟨"i", .int, .declared⟩]
  constantMap := [("greeting", ⟨0⟩)]
  functionMap := [("count", ⟨0⟩)]

theorem noteModule_lines :
    lower noteModule none = .ok noteProgram ∧ noteProgram.dump.toList.splitOn '\n' =
      ["module Notes", "const greeting: string = \"hello\\nworld\"", "function count() -> void",
        "  for let i: int = 0; (i < 3);", "    break", ""].map String.toList := by
  have h : lower noteModule none = .ok noteProgram := by cbv
  refine ⟨h, (dump_lines h).1.trans ?_⟩
  decide +kernel

end Scribe.Lowering
