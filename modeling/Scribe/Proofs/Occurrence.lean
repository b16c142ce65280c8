import Scribe.Core.Program

/-!
# What stands inside what

`children` are the expressions and statements that stand directly inside another one, and
`operands` the expressions that stand directly inside a statement. `All P` holds of a tree if `P`
holds of its root and of everything below it, at any depth. An expression may stand in another one,
in a statement or in a program (`Expr.InExpr`, `Expr.InStmt`, `Expr.InProgram`).

A body is the block of a callable: of a function or method, of an equality, of a hash.
-/

namespace Scribe.Core

theorem forall_mem_pair {α : Type} {P : α → Prop} {a b : α} (ha : P a) (hb : P b) :
    ∀ x ∈ [a, b], P x :=
  List.forall_mem_cons.mpr ⟨ha, List.forall_mem_singleton.mpr hb⟩

/-! ## Expressions -/

/-- The expressions directly inside an expression. -/
def Expr.children : Expr → List Expr
  | .list items _ | .set items _ => items
  | .map entries _ _ => entries.flatMap fun e => [e.1, e.2]
  | .call receiver arguments _ _ => receiver.toList ++ arguments
  | .lookup container key _ _ => [container, key]
  | .property receiver _ _ => [receiver]
  | .contains container value => [container, value]
  | .length operand _ => [operand]
  | .unary _ operand _ => [operand]
  | .binary _ left right _ => [left, right]
  | .pop container _ => [container]
  | .bool _ | .int _ | .rune _ | .string _ | .emptyList _ | .emptySet _ | .emptyMap _ _ | .new _
  | .var _ _ | .self _ | .null _ => []

theorem Expr.mem_children_map {entries : List (Expr × Expr)} {x : Expr × Expr} (hx : x ∈ entries)
    (key value : Ty) : x.1 ∈ (Expr.map entries key value).children ∧
      x.2 ∈ (Expr.map entries key value).children :=
  ⟨List.mem_flatMap.mpr ⟨x, hx, List.mem_cons_self⟩,
    List.mem_flatMap.mpr ⟨x, hx, List.mem_cons_of_mem _ List.mem_cons_self⟩⟩

/-- Expressions that do more than look into storage: literals that fill a set or a map, calls, pops
and variables. -/
def Expr.isActive : Expr → Bool
  | .set _ _ | .map _ _ _ | .call _ _ _ _ | .pop _ _ | .var _ _ => true
  | _ => false

/-- `P` holds of every node of an expression. -/
inductive Expr.All (P : Expr → Prop) : Expr → Prop where
  | intro {e} (here : P e) (below : ∀ c ∈ e.children, Expr.All P c) : Expr.All P e

namespace Expr.All

variable {P Q : Expr → Prop} {e : Expr}

theorem root (h : e.All P) : P e := by
  cases h with
  | intro here _ => exact here

theorem inner (h : e.All P) {c : Expr} (hc : c ∈ e.children) : c.All P := by
  cases h with
  | intro _ below => exact below c hc

theorem imp (hPQ : ∀ e, P e → Q e) (h : e.All P) : e.All Q := by
  induction h with
  | intro here _ ih => exact .intro (hPQ _ here) ih

end Expr.All

/-- An expression stands in another one, at any depth. -/
inductive Expr.InExpr (x : Expr) : Expr → Prop where
  | here : x.InExpr x
  | deeper {e c} (hc : c ∈ e.children) (h : x.InExpr c) : x.InExpr e

theorem Expr.All.of_inExpr {P : Expr → Prop} {e x : Expr} (h : e.All P) (hx : x.InExpr e) :
    P x := by
  induction hx with
  | here => exact h.root
  | deeper hc _ ih => exact ih (h.inner hc)

theorem Expr.sizeOf_child {e c : Expr} (h : c ∈ e.children) : sizeOf c < sizeOf e := by
  cases e with
  | list items item =>
    have hlt : sizeOf c < sizeOf items := List.sizeOf_lt_of_mem h
    simp only [Expr.list.sizeOf_spec]
    omega
  | set items item =>
    have hlt : sizeOf c < sizeOf items := List.sizeOf_lt_of_mem h
    simp only [Expr.set.sizeOf_spec]
    omega
  | map entries key value =>
    obtain ⟨entry, hentry, hc⟩ := List.mem_flatMap.mp h
    have hlt : sizeOf entry < sizeOf entries := List.sizeOf_lt_of_mem hentry
    have hparts : sizeOf entry = 1 + sizeOf entry.1 + sizeOf entry.2 := by cases entry; rfl
    simp only [List.mem_cons, List.not_mem_nil, or_false] at hc
    simp only [Expr.map.sizeOf_spec]
    rcases hc with rfl | rfl <;> omega
  | call receiver arguments function returnType =>
    simp only [Expr.call.sizeOf_spec]
    rcases List.mem_append.mp h with hr | ha
    · rw [Option.mem_toList] at hr
      rw [hr, Option.some.sizeOf_spec]
      omega
    · have hlt : sizeOf c < sizeOf arguments := List.sizeOf_lt_of_mem ha
      omega
  | lookup | contains | binary =>
    simp only [children, List.mem_cons, List.not_mem_nil, or_false] at h
    rcases h with rfl | rfl <;> simp +arith
  | property | length | unary | pop =>
    simp only [children, List.mem_cons, List.not_mem_nil, or_false] at h
    subst h
    simp +arith
  | _ => cases h

/-- Induction over the nodes of an expression: what holds of a node if it holds of the nodes
directly inside it holds of all. -/
theorem Expr.nodeInduction {P : Expr → Prop} (h : ∀ e : Expr, (∀ c ∈ e.children, P c) → P e)
    (e : Expr) : P e :=
  h e fun c _ => Expr.nodeInduction h c
termination_by sizeOf e
decreasing_by exact Expr.sizeOf_child ‹_›

/-- The type that a node says it has. -/
def Expr.stated : Expr → Ty
  | .bool _ | .contains _ _ => .bool
  | .int _ | .length _ _ => .int
  | .rune _ => .rune
  | .string _ => .string
  | .list _ item | .emptyList item => .list item
  | .set _ item | .emptySet item => .set item
  | .map _ key value | .emptyMap key value => .map key value
  | .call _ _ _ returnType => returnType
  | .lookup _ _ _ output | .property _ _ output | .var _ output | .null output => output
  | .new model | .self model => .model model
  | .unary _ _ output | .binary _ _ _ output => .primitive output
  | .pop _ item => item

/-! ## Statements -/

/-- The expressions directly inside a statement. -/
def Stmt.operands : Stmt → List Expr
  | .declare _ value => [value]
  | .assign place value => [place, value]
  | .conditional arms _ => arms.map (·.1)
  | .forLoop _ condition _ _ => [condition]
  | .forEach _ iterable _ _ _ => [iterable]
  | .ret value _ => value.toList
  | .brk | .cont => []
  | .add set value => [set, value]
  | .push list value => [list, value]
  | .pop list => [list]
  | .call receiver arguments _ _ => receiver.toList ++ arguments

/-- The statements directly inside a statement. -/
def Stmt.children : Stmt → List Stmt
  | .conditional arms otherwise => arms.flatMap (·.2) ++ otherwise.getD []
  | .forLoop start _ after body => start.toList ++ (after.toList ++ body)
  | .forEach _ _ _ _ body => body
  | .declare _ _ | .assign _ _ | .ret _ _ | .brk | .cont | .add _ _ | .push _ _ | .pop _
  | .call _ _ _ _ => []

/-- `P` holds of every statement in a statement. -/
inductive Stmt.All (P : Stmt → Prop) : Stmt → Prop where
  | intro {s} (here : P s) (below : ∀ t ∈ s.children, Stmt.All P t) : Stmt.All P s

namespace Stmt.All

variable {P Q : Stmt → Prop} {s : Stmt}

theorem imp (hPQ : ∀ s, P s → Q s) (h : s.All P) : s.All Q := by
  induction h with
  | intro here _ ih => exact .intro (hPQ _ here) ih

end Stmt.All

/-- An expression stands in a statement, at any depth. -/
inductive Expr.InStmt (x : Expr) : Stmt → Prop where
  | operand {s e} (he : e ∈ s.operands) (h : x.InExpr e) : x.InStmt s
  | deeper {s t} (ht : t ∈ s.children) (h : x.InStmt t) : x.InStmt s

/-- A statement that can end in a `break` or `continue` which no loop inside it takes up. -/
inductive Stmt.Loose : Stmt → Prop where
  | brk : Stmt.Loose .brk
  | cont : Stmt.Loose .cont
  | arm {arms otherwise arm s} (harm : arm ∈ arms) (hs : s ∈ arm.2) (h : Stmt.Loose s) :
      Stmt.Loose (.conditional arms otherwise)
  | otherwise {arms block s} (hs : s ∈ block) (h : Stmt.Loose s) :
      Stmt.Loose (.conditional arms (some block))

/-! ## Bindings -/

mutual

/-- The locals that a statement binds, itself or in its parts, in the order in which they get
their ids. -/
def Stmt.binders : Stmt → List LocalId
  | .declare id _ => [id]
  | .conditional arms otherwise => armBinders arms ++ otherwiseBinders otherwise
  | .forLoop start _ after body => partBinders start ++ (partBinders after ++ blockBinders body)
  | .forEach item _ _ _ body => item :: blockBinders body
  | .assign _ _ | .ret _ _ | .brk | .cont | .add _ _ | .push _ _ | .pop _ | .call _ _ _ _ => []

def blockBinders : List Stmt → List LocalId
  | [] => []
  | s :: rest => s.binders ++ blockBinders rest

def partBinders : Option Stmt → List LocalId
  | none => []
  | some s => s.binders

def armBinders : List (Expr × List Stmt) → List LocalId
  | [] => []
  | (_, block) :: rest => blockBinders block ++ armBinders rest

def otherwiseBinders : Option (List Stmt) → List LocalId
  | none => []
  | some block => blockBinders block

end

namespace Program

/-- The body of a callable, if the program has that callable. -/
def body? (p : Program) : Callable → Option Block
  | .function id => (p.getFunction? id).map (·.body)
  | .equality id => ((p.getModel? id).bind (·.equality)).map (·.body)
  | .hashing id => (p.getModel? id).bind (·.hashing)

/-- The model that a callable belongs to. -/
def owner? (p : Program) : Callable → Option ModelId
  | .function id => (p.getFunction? id).bind (·.owner)
  | .equality id | .hashing id => some id

/-- The local that an equality compares with. -/
def other? (p : Program) : Callable → Option LocalId
  | .equality id => ((p.getModel? id).bind (·.equality)).map (·.other)
  | .function _ | .hashing _ => none

/-- The locals that a model binds, in its equality and its hash. -/
def modelBinders (m : Model) : List LocalId :=
  (m.equality.elim [] fun e => e.other :: blockBinders e.body) ++ m.hashing.elim [] blockBinders

/-- All locals that a program binds, each as often as it is bound. -/
def binders (p : Program) : List LocalId :=
  p.functions.toList.flatMap (fun f => blockBinders f.body) ++ p.models.toList.flatMap modelBinders

end Program

/-- An expression stands in a body or in the value of a constant. -/
inductive Expr.InProgram (x : Expr) (p : Program) : Prop where
  | body {callable block s} (hbody : p.body? callable = some block) (hs : s ∈ block)
      (h : x.InStmt s) : x.InProgram p
  | constant {id c} (hc : p.getConstant? id = some c) (h : x.InExpr c.value) : x.InProgram p

end Scribe.Core
