import Scribe.Machine.Exec

/-!
# Runs

One machine serves a sequence of runs. Each run names a free function and gives it arguments; the
first one that gets so far evaluates the constants, which then stay.
-/

namespace Scribe.Machine

open Scribe.Core
open Exec (fault withFrame ofOption)

/-- Whether a value is of a primitive type. -/
def isPrimitive (v : Value) : Primitive → Bool
  | .bool => (v matches .bool _)
  | .int => (v matches .int _)
  | .rune => (v matches .rune _)
  | .string => (v matches .string _)
  | .void => (v matches .void)

/-- Whether a value fits a declared type. Instances fit by their model alone. -/
def conforms (h : Heap) : Ty → Value → Bool
  | .primitive t, v => isPrimitive v t
  | .list item, .list a => (h.list a).all (conforms h item)
  | .set item, .set a => (h.set a).all (conforms h item)
  | .map key value, .map a => (h.map a).all fun e => conforms h key e.1 && conforms h value e.2
  | .model _, .null => true
  | .model id, .object model _ => id == model
  | _, _ => false

/-- Requires each argument to fit its parameter. -/
def checkArguments (p : Program) (h : Heap) :
    List Parameter → List Value → Except Fault Unit
  | q :: parameters, v :: arguments =>
    if conforms h q.type v then checkArguments p h parameters arguments
    else .error (notA (p.typeName q.type) v)
  | _, _ => .ok ()

/-- Evaluates a constant. -/
def initConstant (env : Env) (id : ConstantId) (c : Constant) : Exec Unit := do
  let v ← eval env c.value
  modify fun s => { s with constants := assocInsert id v s.constants }

/-- Evaluates constants, the first of them with the given index. -/
def initFrom (env : Env) (index : Nat) : List Constant → Exec Unit
  | [] => return ()
  | c :: rest => do
    initConstant env ⟨index⟩ c
    initFrom env (index + 1) rest

/-- Evaluates all constants in their order, unless that has been done. -/
def initConstants (env : Env) : Exec Unit := do
  if (← get).constants.length = env.program.constants.size then
    return ()
  else
    withFrame {} (initFrom env 0 env.program.constants.toList)

/-- Runs the free function called `entry`. -/
def run (p : Program) (fuel : Nat) (entry : String) (arguments : List Value) : Exec Value := do
  match p.function? entry with
  | none => fault (.unknownEntry entry)
  | some id => do
    let f ← ofOption (p.getFunction? id)
    if f.parameters.length = arguments.length then
      Exec.ofExcept (checkArguments p (← get).heap f.parameters arguments)
      let env := Env.ofFuel p fuel
      initConstants env
      callFunction env id none arguments
    else
      fault (.argumentMismatch entry f.parameters.length arguments.length)

end Scribe.Machine
