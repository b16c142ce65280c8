import Scribe.Lowering.Queue
import Scribe.Lowering.Stmt

/-!
# Lowering modules

Lowering goes over a module once and declares everything: models, constants, functions, then the
members of models. Bodies are deferred and lowered afterwards in the order of the queue, so a body
may refer to any definition of the module.
-/

namespace Scribe.Lowering

open Scribe.Core
open Lower (check build withFrame inScope)

mutual

/-- Whether an initial value is made of literals, other constants and operators only. -/
def isConstantForm : Syntax.Expr → Bool
  | .bool _ | .int _ | .rune _ | .string _ | .emptyList _ | .emptySet _ | .emptyMap _ _ | .var _ =>
    true
  | .list items => areConstantForms items
  | .set items => areConstantForms items
  | .map entries => areConstantEntries entries
  | .unary _ operand => isConstantForm operand
  | .binary _ left right => isConstantForm left && isConstantForm right
  | .call _ _ | .lookup _ _ | .property _ _ | .contains _ _ | .new _ | .length _ | .self | .null
  | .pop _ => false

def areConstantForms : List Syntax.Expr → Bool
  | [] => true
  | e :: rest => isConstantForm e && areConstantForms rest

def areConstantEntries : List (Syntax.Expr × Syntax.Expr) → Bool
  | [] => true
  | (key, value) :: rest => isConstantForm key && isConstantForm value && areConstantEntries rest

end

/-! ## Declarations -/

/-- Declares a model without its members. -/
def declareModel (m : Syntax.Model) : Lower ModelId := do
  check fun _ => checkTypeName m.name
  build (Build.declareModel m.name)

/-- Lowers and declares a constant. -/
def lowerConstant (c : Syntax.Constant) : Lower Unit := do
  check fun _ => checkConstantName c.name
  if !isConstantForm c.value then
    throw (.invalidConstant c.name)
  let value ← lowerExpr c.value
  let type ← typed value
  let _ ← build (Build.declareConstant { name := c.name, value, type })

/-- The parameters of a function, after those in `earlier`. -/
def lowerParameters (earlier : List Parameter) : List Syntax.Parameter → Lower (List Parameter)
  | [] => return earlier
  | q :: rest => do
    check fun _ => checkMemberName q.name
    if earlier.any (·.name == q.name) then
      throw (.duplicateDefinition q.name)
    let type ← check (lowerValueType · q.type)
    lowerParameters (earlier ++ [{ name := q.name, type }]) rest

/-- The parameters and the return type of a function. -/
def lowerSignature (f : Syntax.Function) : Lower (List Parameter × Ty) := do
  let parameters ← lowerParameters [] f.parameters
  let returnType ← check (lowerType · f.returnType)
  return (parameters, returnType)

/-- Defers work to the current scope with one more frame. -/
def defer (frame : Frame) (work : Work) : Lower Deferred := do
  return { scope := frame :: (← get).scope, work }

/-- Declares a free function and defers its body. -/
def lowerFunction (f : Syntax.Function) : Lower Deferred := do
  check fun _ => checkMemberName f.name
  let (parameters, returnType) ← lowerSignature f
  let id ← build (Build.declareFunction { name := f.name, parameters, returnType, owner := none })
  defer (.function id) (.body (.function id f.body))

/-- Declares a field. -/
def lowerField (model : ModelId) (f : Syntax.Field) : Lower Unit := do
  check fun _ => checkMemberName f.name
  let type ← check (lowerValueType · f.type)
  let _ ← build (Build.declareField model { name := f.name, type })

/-- Declares a method. -/
def lowerMethod (model : ModelId) (f : Syntax.Function) : Lower Unit := do
  check fun _ => checkMemberName f.name
  let (parameters, returnType) ← lowerSignature f
  let id ← build (Build.allocMethod
    { name := f.name, parameters, returnType, owner := some model })
  build (Build.declareMethod model f.name id)

/-- Declares the fields and methods of a model and defers their bodies. -/
def lowerSkeleton (id : ModelId) (m : Syntax.Model) : Lower Deferred := do
  m.fields.forM (lowerField id)
  m.methods.forM (lowerMethod id)
  defer (.model id) (.members id m)

/-- Declares everything in a module and gives the work that is left. -/
def declareAll (m : Syntax.Module) : Lower (List Deferred) := withFrame .program do
  let ids ← m.models.mapM declareModel
  m.constants.forM lowerConstant
  let functions ← m.functions.mapM lowerFunction
  let models ← (ids.zip m.models).mapM fun (id, model) => lowerSkeleton id model
  return functions ++ models

/-! ## Bodies -/

/-- The body of a callable. -/
def lowerBody (callable : Callable) (block : Syntax.Block) : Lower Block := do
  let body ← lowerBlock block
  let name ← check fun p => .ofOption (p.callableName? callable)
  let returnType ← check fun p => .ofOption (p.callableReturnType? callable)
  check fun _ => checkTerminal name returnType body
  return body

/-- The model behind an id. -/
def modelAt (id : ModelId) : Lower Model :=
  check fun p => .ofOption (p.getModel? id)

/-- Lowers a body and stores it. -/
def runBody : Body → Lower Unit
  | .function id block | .method id block => do
    let body ← lowerBody (.function id) block
    build (Build.setBody id body)
  | .equality id block => do
    let body ← lowerBody (.equality id) block
    let m ← modelAt id
    match m.equality with
    | some e => build (Build.setModel id { m with equality := some { e with body } })
    | none => throw (.structural .equalityWithoutSkeleton)
  | .hashing id block => do
    let body ← lowerBody (.hashing id) block
    let m ← modelAt id
    match m.hashing with
    | some _ => build (Build.setModel id { m with hashing := some body })
    | none => throw (.structural .hashingWithoutSkeleton)

/-- A body and the frame that belongs to it. -/
abbrev FramedBody := Frame × Body

/-- Prepares the equality of a model. -/
def prepareEquality (id : ModelId) (e : Syntax.Equality) : Lower FramedBody := do
  check fun _ => checkMemberName e.other
  let other ← newLocal e.other (.model id) .overrideOther
  let m ← modelAt id
  build (Build.setModel id { m with equality := some { other, body := [] } })
  return (.equality id ⟨e.other, other⟩, .equality id e.body)

/-- Prepares the hash of a model. -/
def prepareHashing (id : ModelId) (block : Syntax.Block) : Lower FramedBody := do
  let m ← modelAt id
  build (Build.setModel id { m with hashing := some [] })
  return (.hashing id, .hashing id block)

/-- The bodies of the members of a model: its methods, its equality, its hash. -/
def memberBodies (id : ModelId) (m : Syntax.Model) : Lower (List FramedBody) := do
  let ids := (← modelAt id).methods.map (·.function)
  let methods := (ids.zip m.methods).map fun (f, method) => (.function f, .method f method.body)
  let equality ← match m.equality with
    | some e => do pure [← prepareEquality id e]
    | none => pure []
  let hashing ← match m.hashing with
    | some block => do pure [← prepareHashing id block]
    | none => pure []
  return methods ++ equality ++ hashing

/-! ## The queue -/

/-- Bodies as work in a scope, each inside its frame. -/
def deferBodies (scope : Scope) (bodies : List FramedBody) : List Deferred :=
  bodies.map fun (frame, body) => { scope := frame :: scope, work := .body body }

@[simp] theorem countP_deferBodies (scope : Scope) (bodies : List FramedBody) :
    (deferBodies scope bodies).countP (·.work.isMembers) = 0 := by
  simp [deferBodies, List.countP_eq_zero, Work.isMembers]

/-- Refuses to go on once more work has been taken than the limit allows. -/
def checkLimit (limit : Option Nat) (executed : Nat) : Checked Unit :=
  match limit with
  | some n => if executed > n then .error (.structural (.tooManyDeferred n)) else .ok ()
  | none => .ok ()

/-- Runs all work of a queue. Members of a model bring bodies and bodies bring nothing, so the
queue gets empty. -/
def drain (limit : Option Nat) (q : Queue) : Lower Queue :=
  match _h : q.dequeue? with
  | none => return q
  | some (⟨scope, .body body⟩, rest) => do
    check fun _ => checkLimit limit rest.executed
    inScope scope (runBody body)
    drain limit rest
  | some (⟨scope, .members id m⟩, rest) => do
    check fun _ => checkLimit limit rest.executed
    let bodies ← inScope scope (memberBodies id m)
    drain limit (rest.enqueueAll (deferBodies scope bodies))
termination_by (q.pendingMembers, q.length)
decreasing_by
  · obtain ⟨hq, _⟩ := Queue.dequeue?_eq_some _h
    simp [Queue.pendingMembers, Queue.length, hq, Prod.lex_def, Work.isMembers]
  · obtain ⟨hq, _⟩ := Queue.dequeue?_eq_some _h
    apply Prod.Lex.left
    have hmembers : (Work.members id m).isMembers = true := rfl
    simp [Queue.pendingMembers, hq, hmembers]

/-- Lowers a module. -/
def lowerModule (limit : Option Nat) (m : Syntax.Module) : Lower Unit := do
  check fun _ => checkTypeName m.name
  let work ← declareAll m
  let _ ← drain limit { items := work }

/-- The program of a module, or the first error. At most `limit` pieces of deferred work are
run. -/
def lower (m : Syntax.Module) (limit : Option Nat) : Checked Program :=
  match lowerModule limit m { program := { name := m.name }, scope := [] } with
  | .ok _ c => .ok c.program
  | .error e _ => .error e

end Scribe.Lowering
