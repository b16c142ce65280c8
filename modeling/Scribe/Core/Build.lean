import Scribe.Core.Program

/-!
# Building programs

A program grows by declarations. A declaration whose name is taken is refused and leaves the
program as it was; what was declared before keeps its id.
-/

namespace Scribe.Core

/-- Why a declaration is refused. -/
inductive BuildError where
  /-- The name is taken in its name space. -/
  | duplicate (name : String)
  /-- There is no model with this id. -/
  | unknownModel (id : ModelId)
  deriving DecidableEq, Repr

/-- A change to a program that may be refused. -/
abbrev Build := EStateM BuildError Program

namespace Build

/-- Adds a constant, unless a constant or a free function has its name. -/
def declareConstant (c : Constant) : Build ConstantId := do
  let p ← get
  if p.hasValue c.name then
    throw (.duplicate c.name)
  let id := ⟨p.constants.size⟩
  set { p with
    constants := p.constants.push c
    constantMap := assocInsert c.name id p.constantMap }
  return id

/-- Adds a free function, unless a constant or a free function has its name. -/
def declareFunction (f : Function) : Build FunctionId := do
  let p ← get
  if p.hasValue f.name then
    throw (.duplicate f.name)
  let id := ⟨p.functions.size⟩
  set { p with
    functions := p.functions.push f
    functionMap := assocInsert f.name id p.functionMap }
  return id

/-- Takes an id for a function that has no name in the program. No model knows it yet. -/
def allocMethod (f : Function) : Build FunctionId :=
  modifyGet fun p => (⟨p.functions.size⟩, { p with functions := p.functions.push f })

/-- Adds a model without members, unless a model has its name. -/
def declareModel (name : String) : Build ModelId := do
  let p ← get
  if (p.model? name).isSome then
    throw (.duplicate name)
  let id := ⟨p.models.size⟩
  set { p with
    models := p.models.push { name }
    modelMap := assocInsert name id p.modelMap }
  return id

/-- Replaces a model. -/
def setModel (id : ModelId) (m : Model) : Build Unit :=
  modify fun p => { p with models := p.models.setIfInBounds id.index m }

/-- Looks up a model. -/
def model (id : ModelId) : Build Model := do
  match (← get).getModel? id with
  | some m => return m
  | none => throw (.unknownModel id)

/-- Adds a field to a model, unless a field or a method has its name. -/
def declareField (id : ModelId) (field : Field) : Build Nat := do
  let m ← model id
  if m.hasMember field.name then
    throw (.duplicate field.name)
  let index := m.fields.length
  setModel id { m with
    fields := m.fields ++ [field]
    fieldMap := assocInsert field.name index m.fieldMap }
  return index

/-- Makes a function known as a method of a model, unless a field or a method has its name. -/
def declareMethod (id : ModelId) (name : String) (function : FunctionId) : Build Unit := do
  let m ← model id
  if m.hasMember name then
    throw (.duplicate name)
  setModel id { m with
    methods := m.methods ++ [{ name, function }]
    methodMap := assocInsert name function m.methodMap }

/-- Adds a local binding. -/
def allocLocal (binding : Local) : Build LocalId :=
  modifyGet fun p => (⟨p.locals.size⟩, { p with locals := p.locals.push binding })

/-- Stores the body of a function. -/
def setBody (id : FunctionId) (body : Block) : Build Unit :=
  modify fun p => { p with functions := p.functions.modify id.index ({ · with body }) }

end Build

end Scribe.Core
