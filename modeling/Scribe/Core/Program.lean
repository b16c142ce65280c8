import Scribe.Core.Expr

/-!
# Core programs

A program holds its definitions in tables and ids point into them. Constants and free functions
share one name space, models have another, and the fields and methods of a model share a third.
Names are looked up in maps of their own, which stand beside the tables and are kept in step with
them when a program is built.
-/

namespace Scribe.Core

/-- Binds `key`, in its old place if it was bound. -/
def assocInsert {κ α : Type} [DecidableEq κ] (key : κ) (value : α) : List (κ × α) → List (κ × α)
  | [] => [(key, value)]
  | (k, v) :: rest =>
    if k = key then (key, value) :: rest else (k, v) :: assocInsert key value rest

/-- Names and what they stand for, in the order in which they were taken. -/
abbrev NameMap (α : Type) := List (String × α)

/-- A constant, with the type of its value. -/
structure Constant where
  name : String
  value : Expr
  type : Ty

/-- A parameter of a function. -/
structure Parameter where
  name : String
  type : Ty
  deriving DecidableEq, Repr

/-- A free function, or a method of the model that owns it. -/
structure Function where
  name : String
  parameters : List Parameter
  returnType : Ty
  owner : Option ModelId
  /-- The body is empty until it has been lowered. -/
  body : Block := []

/-- A field of a model. -/
structure Field where
  name : String
  type : Ty
  deriving DecidableEq, Repr

/-- The name under which a model knows one of its methods. -/
structure Method where
  name : String
  function : FunctionId
  deriving DecidableEq, Repr

/-- Equality defined by a model: `other` is bound to the instance compared with. -/
structure Equality where
  other : LocalId
  body : Block

/-- A model. -/
structure Model where
  name : String
  fields : List Field := []
  methods : List Method := []
  equality : Option Equality := none
  hashing : Option Block := none
  /-- The positions of the fields. -/
  fieldMap : NameMap Nat := []
  methodMap : NameMap FunctionId := []

/-- Where a local binding comes from. -/
inductive LocalOrigin where
  | declared
  | forEachItem
  | overrideOther
  deriving DecidableEq, Repr

/-- A local binding. -/
structure Local where
  name : String
  type : Ty
  origin : LocalOrigin
  deriving DecidableEq, Repr

/-- A program. -/
structure Program where
  name : String
  constants : Array Constant := #[]
  functions : Array Function := #[]
  models : Array Model := #[]
  locals : Array Local := #[]
  constantMap : NameMap ConstantId := []
  /-- The free functions. -/
  functionMap : NameMap FunctionId := []
  modelMap : NameMap ModelId := []

namespace Model

/-- The position of the field called `name`. -/
def field? (m : Model) (name : String) : Option Nat :=
  m.fieldMap.lookup name

/-- The method called `name`. -/
def method? (m : Model) (name : String) : Option FunctionId :=
  m.methodMap.lookup name

/-- Whether a field or a method is called `name`. -/
def hasMember (m : Model) (name : String) : Bool :=
  (m.field? name).isSome || (m.method? name).isSome

end Model

namespace Program

variable (p : Program)

/-! ## Definitions by id -/

def getConstant? (id : ConstantId) : Option Constant :=
  p.constants[id.index]?

def getFunction? (id : FunctionId) : Option Function :=
  p.functions[id.index]?

def getModel? (id : ModelId) : Option Model :=
  p.models[id.index]?

def getLocal? (id : LocalId) : Option Local :=
  p.locals[id.index]?

def getParameter? (function : FunctionId) (index : Nat) : Option Parameter := do
  (← p.getFunction? function).parameters[index]?

def getField? (model : ModelId) (index : Nat) : Option Field := do
  (← p.getModel? model).fields[index]?

/-! ## Definitions by name -/

/-- The constant called `name`. -/
def constant? (name : String) : Option ConstantId :=
  p.constantMap.lookup name

/-- The free function called `name`. -/
def function? (name : String) : Option FunctionId :=
  p.functionMap.lookup name

/-- The model called `name`. -/
def model? (name : String) : Option ModelId :=
  p.modelMap.lookup name

/-- Whether a constant or a free function is called `name`. -/
def hasValue (name : String) : Bool :=
  (p.constant? name).isSome || (p.function? name).isSome

/-- The free functions, in the order of their declaration. -/
def freeFunctions : List FunctionId :=
  p.functionMap.map (·.2)

/-! ## What ids stand for -/

/-- The type of a definition. -/
def definitionType? : Definition → Option Ty
  | .constant id => (p.getConstant? id).map (·.type)
  | .argument function index => (p.getParameter? function index).map (·.type)
  | .field model index => (p.getField? model index).map (·.type)
  | .binding id => (p.getLocal? id).map (·.type)

/-- The name of a definition. -/
def definitionName? : Definition → Option String
  | .constant id => (p.getConstant? id).map (·.name)
  | .argument function index => (p.getParameter? function index).map (·.name)
  | .field model index => (p.getField? model index).map (·.name)
  | .binding id => (p.getLocal? id).map (·.name)

/-- The type a callable returns: an equality answers with a `bool` and a hash with an `int`. -/
def callableReturnType? : Callable → Option Ty
  | .function id => (p.getFunction? id).map (·.returnType)
  | .equality _ => some .bool
  | .hashing _ => some .int

/-- The name of a callable in messages. -/
def callableName? : Callable → Option String
  | .function id => (p.getFunction? id).map (·.name)
  | .equality model => (p.getModel? model).map (·.name ++ ".equal")
  | .hashing model => (p.getModel? model).map (·.name ++ ".hash")

/-- The text of a type; a type that names no model of the program has none. -/
def typeName? : Ty → Option String
  | .primitive t => some t.name
  | .list item => do return "list<" ++ (← typeName? item) ++ ">"
  | .map key value => do
    return "map<" ++ (← typeName? key) ++ ", " ++ (← typeName? value) ++ ">"
  | .set item => do return "set<" ++ (← typeName? item) ++ ">"
  | .model id => (p.getModel? id).map (·.name)

/-- The text of a type, empty where it has none. -/
def typeName (t : Ty) : String :=
  (p.typeName? t).getD ""

end Program

end Scribe.Core
