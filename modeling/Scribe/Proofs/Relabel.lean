import Scribe.Lowering.Module

/-!
# Other names for everything

`relabel r` puts the name `r x` for every name `x`, in modules, in programs and in the scopes
between them. Texts that are values stay. A `Relabeling` keeps names apart, keeps which names the
conventions allow and leaves the names of built-in operations alone.

Lowering asks tables and scopes for what an id or a name stands for. Here is what they answer after
relabeling: the same, under the other names.
-/

namespace Scribe.Syntax

variable (r : String → String)

def TypeExpr.relabel : TypeExpr → TypeExpr
  | .model name => .model (r name)
  | .list item => .list item.relabel
  | .set item => .set item.relabel
  | .map key value => .map key.relabel value.relabel
  | .bool => .bool
  | .int => .int
  | .rune => .rune
  | .string => .string
  | .void => .void

mutual

/-- An expression with other names. A text that is a value is no name. -/
def Expr.relabel : Expr → Expr
  | .bool value => .bool value
  | .int value => .int value
  | .rune value => .rune value
  | .string value => .string value
  | .list items => .list (relabelExprs items)
  | .map entries => .map (relabelEntries entries)
  | .set items => .set (relabelExprs items)
  | .emptyList item => .emptyList (item.relabel r)
  | .emptySet item => .emptySet (item.relabel r)
  | .emptyMap key value => .emptyMap (key.relabel r) (value.relabel r)
  | .call target arguments => .call target.relabel (relabelExprs arguments)
  | .lookup container key => .lookup container.relabel key.relabel
  | .property receiver name => .property receiver.relabel (r name)
  | .contains set value => .contains set.relabel value.relabel
  | .new model => .new (r model)
  | .length operand => .length operand.relabel
  | .unary op operand => .unary op operand.relabel
  | .binary op left right => .binary op left.relabel right.relabel
  | .var name => .var (r name)
  | .self => .self
  | .null => .null
  | .pop list => .pop list.relabel

def Target.relabel : Target → Target
  | .function name => .function (r name)
  | .method receiver name => .method receiver.relabel (r name)

def relabelExprs : List Expr → List Expr
  | [] => []
  | e :: rest => e.relabel :: relabelExprs rest

def relabelEntries : List (Expr × Expr) → List (Expr × Expr)
  | [] => []
  | (key, value) :: rest => (key.relabel, value.relabel) :: relabelEntries rest

end

mutual

def Stmt.relabel : Stmt → Stmt
  | .declare name value => .declare (r name) (value.relabel r)
  | .assign place value => .assign (place.relabel r) (value.relabel r)
  | .conditional arms otherwise => .conditional (relabelArms arms) (relabelOtherwise otherwise)
  | .forLoop start condition after body =>
    .forLoop (relabelPart start) (condition.relabel r) (relabelPart after) (relabelBlock body)
  | .forEach item iterable body => .forEach (r item) (iterable.relabel r) (relabelBlock body)
  | .ret value => .ret (value.map (·.relabel r))
  | .brk => .brk
  | .cont => .cont
  | .add set value => .add (set.relabel r) (value.relabel r)
  | .push list value => .push (list.relabel r) (value.relabel r)
  | .pop list => .pop (list.relabel r)
  | .call target arguments => .call (target.relabel r) (relabelExprs r arguments)

def relabelBlock : List Stmt → List Stmt
  | [] => []
  | s :: rest => s.relabel :: relabelBlock rest

def relabelPart : Option Stmt → Option Stmt
  | none => none
  | some s => some s.relabel

def relabelArms : List (Expr × List Stmt) → List (Expr × List Stmt)
  | [] => []
  | (condition, block) :: rest => (condition.relabel r, relabelBlock block) :: relabelArms rest

def relabelOtherwise : Option (List Stmt) → Option (List Stmt)
  | none => none
  | some block => some (relabelBlock block)

end

def Constant.relabel (k : Constant) : Constant :=
  { name := r k.name, value := k.value.relabel r }

def Parameter.relabel (q : Parameter) : Parameter :=
  { name := r q.name, type := q.type.relabel r }

def Function.relabel (f : Function) : Function where
  name := r f.name
  parameters := f.parameters.map (·.relabel r)
  returnType := f.returnType.relabel r
  body := relabelBlock r f.body

def Field.relabel (f : Field) : Field :=
  { name := r f.name, type := f.type.relabel r }

def Equality.relabel (e : Equality) : Equality :=
  { other := r e.other, body := relabelBlock r e.body }

def Model.relabel (m : Model) : Model where
  name := r m.name
  fields := m.fields.map (·.relabel r)
  methods := m.methods.map (·.relabel r)
  equality := m.equality.map (·.relabel r)
  hashing := m.hashing.map (relabelBlock r)

/-- A module with other names for everything it declares and uses. -/
def Module.relabel (m : Module) : Module where
  name := r m.name
  constants := m.constants.map (·.relabel r)
  functions := m.functions.map (·.relabel r)
  models := m.models.map (·.relabel r)

end Scribe.Syntax

namespace Scribe.Core

variable (r : String → String)

def Constant.relabel (k : Constant) : Constant :=
  { k with name := r k.name }

def Parameter.relabel (q : Parameter) : Parameter :=
  { q with name := r q.name }

def Function.relabel (f : Function) : Function :=
  { f with name := r f.name, parameters := f.parameters.map (·.relabel r) }

def Field.relabel (f : Field) : Field :=
  { f with name := r f.name }

def Method.relabel (x : Method) : Method :=
  { x with name := r x.name }

def NameMap.relabel {α : Type} (map : NameMap α) : NameMap α :=
  map.map fun entry => (r entry.1, entry.2)

def Model.relabel (m : Model) : Model :=
  { m with
    name := r m.name
    fields := m.fields.map (·.relabel r)
    methods := m.methods.map (·.relabel r)
    fieldMap := m.fieldMap.relabel r
    methodMap := m.methodMap.relabel r }

def Local.relabel (l : Local) : Local :=
  { l with name := r l.name }

/-- A program with other names. Ids, types and code stay, since there are no names in them. -/
def Program.relabel (p : Program) : Program where
  name := r p.name
  constants := p.constants.map (·.relabel r)
  functions := p.functions.map (·.relabel r)
  models := p.models.map (·.relabel r)
  locals := p.locals.map (·.relabel r)
  constantMap := p.constantMap.relabel r
  functionMap := p.functionMap.relabel r
  modelMap := p.modelMap.relabel r

end Scribe.Core

namespace Scribe.Lowering

open Scribe.Core

section Relabel

variable (r : String → String)

def Binding.relabel (b : Binding) : Binding :=
  { b with name := r b.name }

def Frame.relabel : Frame → Frame
  | .equality id other => .equality id (other.relabel r)
  | .block bindings => .block (bindings.map (·.relabel r))
  | .forLoop binding => .forLoop (binding.map (·.relabel r))
  | .forEach item => .forEach (item.relabel r)
  | .program => .program
  | .model id => .model id
  | .function id => .function id
  | .hashing id => .hashing id

def Scope.relabel (scope : Scope) : Scope :=
  scope.map (·.relabel r)

def Context.relabel (c : Context) : Context :=
  { program := c.program.relabel r, scope := c.scope.relabel r }

def Body.relabel : Body → Body
  | .function id block => .function id (Syntax.relabelBlock r block)
  | .method id block => .method id (Syntax.relabelBlock r block)
  | .equality model block => .equality model (Syntax.relabelBlock r block)
  | .hashing model block => .hashing model (Syntax.relabelBlock r block)

def Work.relabel : Work → Work
  | .body b => .body (b.relabel r)
  | .members id m => .members id (m.relabel r)

def Deferred.relabel (d : Deferred) : Deferred :=
  { scope := d.scope.relabel r, work := d.work.relabel r }

def FramedBody.relabel (x : FramedBody) : FramedBody :=
  (x.1.relabel r, x.2.relabel r)

def Queue.relabel (q : Queue) : Queue :=
  { q with items := q.items.map (·.relabel r) }

/-- A choice of other names that keeps what lowering asks about names: which of them are the same,
which of them the conventions allow, and which of them are built-in operations. -/
structure Relabeling : Prop where
  injective : Function.Injective r
  builtIn : ∀ name ∈ ["add", "push", "pop", "contains"], r name = name
  typeName : ∀ name, checkTypeName (r name) = .ok () ↔ checkTypeName name = .ok ()
  memberName : ∀ name, checkMemberName (r name) = .ok () ↔ checkMemberName name = .ok ()
  constantName : ∀ name, checkConstantName (r name) = .ok () ↔ checkConstantName name = .ok ()

end Relabel

/-! ## Tables -/

section Tables

variable {r : String → String} {p : Program}

theorem getConstant?_relabel (id : ConstantId) :
    (p.relabel r).getConstant? id = (p.getConstant? id).map (·.relabel r) :=
  Array.getElem?_map

theorem getFunction?_relabel (id : FunctionId) :
    (p.relabel r).getFunction? id = (p.getFunction? id).map (·.relabel r) :=
  Array.getElem?_map

theorem getModel?_relabel (id : ModelId) :
    (p.relabel r).getModel? id = (p.getModel? id).map (·.relabel r) :=
  Array.getElem?_map

theorem getLocal?_relabel (id : LocalId) :
    (p.relabel r).getLocal? id = (p.getLocal? id).map (·.relabel r) :=
  Array.getElem?_map

theorem getParameter?_relabel (id : FunctionId) (i : Nat) :
    (p.relabel r).getParameter? id i = (p.getParameter? id i).map (·.relabel r) := by
  unfold Program.getParameter?
  rw [getFunction?_relabel]
  cases p.getFunction? id with
  | none => rfl
  | some f => exact List.getElem?_map

theorem getField?_relabel (id : ModelId) (i : Nat) :
    (p.relabel r).getField? id i = (p.getField? id i).map (·.relabel r) := by
  unfold Program.getField?
  rw [getModel?_relabel]
  cases p.getModel? id with
  | none => rfl
  | some m => exact List.getElem?_map

/-- There are no names in types. -/
theorem definitionType?_relabel (d : Definition) :
    (p.relabel r).definitionType? d = p.definitionType? d := by
  cases d with
  | constant id => rw [Program.definitionType?, getConstant?_relabel, Option.map_map]; rfl
  | argument id i => rw [Program.definitionType?, getParameter?_relabel, Option.map_map]; rfl
  | field id i => rw [Program.definitionType?, getField?_relabel, Option.map_map]; rfl
  | binding id => rw [Program.definitionType?, getLocal?_relabel, Option.map_map]; rfl

theorem callableReturnType?_relabel (callable : Callable) :
    (p.relabel r).callableReturnType? callable = p.callableReturnType? callable := by
  cases callable with
  | function id => rw [Program.callableReturnType?, getFunction?_relabel, Option.map_map]; rfl
  | equality _ | hashing _ => rfl

end Tables

/-! ## Search by name -/

section Search

variable {r : String → String} (hr : Function.Injective r)

include hr

theorem relabel_beq (a b : String) : (r a == r b) = (a == b) := by
  by_cases h : a = b
  · rw [h, beq_self_eq_true, beq_self_eq_true]
  · rw [beq_eq_false_iff_ne.mpr h, beq_eq_false_iff_ne.mpr (hr.ne h)]

theorem lookup_relabel {α : Type} (map : NameMap α) (name : String) :
    (map.relabel r).lookup (r name) = map.lookup name := by
  induction map with
  | nil => rfl
  | cons entry rest ih =>
    show List.lookup (r name) ((r entry.1, entry.2) :: NameMap.relabel r rest) = _
    rw [List.lookup_cons, List.lookup_cons, relabel_beq hr, ih]

theorem assocInsert_relabel {α : Type} (name : String) (a : α) (map : NameMap α) :
    assocInsert (r name) a (map.relabel r) = NameMap.relabel r (assocInsert name a map) := by
  induction map with
  | nil => rfl
  | cons entry rest ih =>
    show assocInsert (r name) a ((r entry.1, entry.2) :: NameMap.relabel r rest) = _
    unfold assocInsert
    simp only [hr.eq_iff, ih]
    split <;> rfl

theorem constant?_relabel (p : Program) (name : String) :
    (p.relabel r).constant? (r name) = p.constant? name :=
  lookup_relabel hr p.constantMap name

theorem function?_relabel (p : Program) (name : String) :
    (p.relabel r).function? (r name) = p.function? name :=
  lookup_relabel hr p.functionMap name

theorem model?_relabel (p : Program) (name : String) :
    (p.relabel r).model? (r name) = p.model? name :=
  lookup_relabel hr p.modelMap name

theorem hasValue_relabel (p : Program) (name : String) :
    (p.relabel r).hasValue (r name) = p.hasValue name := by
  unfold Program.hasValue
  rw [constant?_relabel hr, function?_relabel hr]

theorem field?_relabel (m : Model) (name : String) :
    (m.relabel r).field? (r name) = m.field? name :=
  lookup_relabel hr m.fieldMap name

theorem method?_relabel (m : Model) (name : String) :
    (m.relabel r).method? (r name) = m.method? name :=
  lookup_relabel hr m.methodMap name

theorem hasMember_relabel (m : Model) (name : String) :
    (m.relabel r).hasMember (r name) = m.hasMember name := by
  unfold Model.hasMember
  rw [field?_relabel hr, method?_relabel hr]

end Search

/-! ## Scopes -/

variable {r : String → String}

theorem enclosingModel?_relabel (scope : Scope) :
    (scope.relabel r).enclosingModel? = scope.enclosingModel? := by
  unfold Scope.enclosingModel? Scope.relabel
  rw [List.findSome?_map]
  refine congrArg (List.findSome? · scope) (funext fun frame => ?_)
  cases frame <;> rfl

theorem enclosingCallable?_relabel (scope : Scope) :
    (scope.relabel r).enclosingCallable? = scope.enclosingCallable? := by
  unfold Scope.enclosingCallable? Scope.relabel
  rw [List.findSome?_map]
  refine congrArg (List.findSome? · scope) (funext fun frame => ?_)
  cases frame <;> rfl

theorem inLoop_relabel (scope : Scope) : (scope.relabel r).inLoop = scope.inLoop := by
  induction scope with
  | nil => rfl
  | cons frame outer ih =>
    cases frame with
    | forLoop | forEach | function | equality | hashing => rfl
    | program | model | block => exact ih

end Scribe.Lowering
