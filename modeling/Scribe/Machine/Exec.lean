import Scribe.Machine.Eval

/-!
# Execution of statements

A statement says how control goes on after it. Calls are made through the environment; `invoke`
closes the circle and runs bodies with one unit of fuel less each time a call goes deeper, so every
run ends: with a value, with a fault, or because its fuel is used up.
-/

namespace Scribe.Machine

open Scribe.Core
open Exec (fault invalid look change frame setFrame setLocal receiver setField popList withFrame
  ofExcept)

/-- How control leaves a statement. -/
inductive Flow where
  | next
  | brk
  | cont
  | ret (value : Value)
  deriving DecidableEq, Repr

/-- Assigns to a variable. -/
def assignDefinition (definition : Definition) (value : Value) : Exec Unit := do
  match definition with
  | .binding id => setLocal id value
  | .argument _ index => do
    if index < (← frame).arguments.length then
      setFrame fun f => { f with arguments := f.arguments.set index value }
    else
      invalid .argumentOutOfRange
  | .field _ index => do
    let (_, a) ← receiver
    setField a index value
  | .constant _ => invalid .assignToConstant

/-- Assigns to an element of a list or a map. -/
def assignElement (env : Env) (container key value : Value) : Exec Unit :=
  match container with
  | .list a => do
    let index ← ofExcept (asInt key)
    let items ← look (·.list a)
    let slot ← ofExcept (checkedIndex index items.size)
    change (·.setItem a slot value)
  | .map a => putEntry env a key value
  | other => fault (notA "list or map" other)

/-- Assigns to a place. -/
def assign (env : Env) (place : Expr) (value : Value) : Exec Unit := do
  match place with
  | .var definition _ => assignDefinition definition value
  | .property receiver field _ =>
    match ← eval env receiver with
    | .object _ a => setField a field.index value
    | .null => fault .nullDereference
    | other => fault (notA "instance" other)
  | .lookup container key _ _ => do
    let container ← eval env container
    let key ← eval env key
    assignElement env container key value
  | _ => invalid .assignToNonPlace

/-- Appends to a list. -/
def pushTo (list value : Value) : Exec Unit :=
  match list with
  | .list a => change (·.pushItem a value)
  | other => fault (notA "list" other)

/-- What a for-each walks over: the items that there are when it begins. -/
def iterationItems : Value → Exec (List Value)
  | .list a => return (← look (·.list a)).toList
  | .set a => return (← look (·.set a)).toList
  | other => fault (notA "list or set" other)

/-- Runs a body as long as a condition holds, at most `fuel` times. -/
def repeatWhile (condition : Exec Bool) (body : Exec Flow) (after : Exec Unit) :
    Nat → Exec Flow
  | 0 => throw .exhausted
  | fuel + 1 => do
    if ← condition then
      match ← body with
      | .brk => return .next
      | .ret value => return .ret value
      | .next | .cont => do
        after
        repeatWhile condition body after fuel
    else
      return .next

/-- Runs a body for each of some items. -/
def repeatFor (bind : Value → Exec Unit) (body : Exec Flow) : List Value → Exec Flow
  | [] => return .next
  | v :: rest => do
    bind v
    match ← body with
    | .brk => return .next
    | .ret value => return .ret value
    | .next | .cont => repeatFor bind body rest

mutual

/-- Executes a statement. -/
def exec (env : Env) : Stmt → Exec Flow
  | .declare id value => do
    let v ← eval env value
    setLocal id v
    return .next
  | .assign place value => do
    let v ← eval env value
    assign env place v
    return .next
  | .conditional arms otherwise => execArms env arms (execOtherwise env otherwise)
  | .forLoop start condition after body => do
    execPart env start
    repeatWhile (truth (eval env condition)) (execBlock env body) (execPart env after) env.fuel
  | .forEach item iterable _ _ body => do
    let items ← iterationItems (← eval env iterable)
    repeatFor (setLocal item) (execBlock env body) items
  | .ret none _ => return .ret .void
  | .ret (some value) _ => do return .ret (← eval env value)
  | .brk => return .brk
  | .cont => return .cont
  | .add set value => do
    let set ← eval env set
    let value ← eval env value
    addToSet env set value
    return .next
  | .push list value => do
    let list ← eval env list
    let value ← eval env value
    pushTo list value
    return .next
  | .pop list => do
    let _ ← popList (← eval env list)
    return .next
  | .call receiver arguments function _ => do
    let receiver ← evalReceiver env receiver
    let arguments ← evalAll env arguments
    let _ ← callFunction env function receiver arguments
    return .next

def execBlock (env : Env) : List Stmt → Exec Flow
  | [] => return .next
  | s :: rest => do
    match ← exec env s with
    | .next => execBlock env rest
    | flow => return flow

/-- The first or last part of a loop. Control goes on after it in any case. -/
def execPart (env : Env) : Option Stmt → Exec Unit
  | none => return ()
  | some s => do
    let _ ← exec env s

/-- The block of the first arm whose condition holds. -/
def execArms (env : Env) : List (Expr × List Stmt) → Exec Flow → Exec Flow
  | [], otherwise => otherwise
  | (condition, block) :: rest, otherwise => do
    if ← truth (eval env condition) then
      execBlock env block
    else
      execArms env rest otherwise

def execOtherwise (env : Env) : Option (List Stmt) → Exec Flow
  | none => return .next
  | some block => execBlock env block

end

/-- The value that a body gives to its caller. -/
def flowResult (name : String) : Flow → Exec Value
  | .ret value => return value
  | .next => return .void
  | .brk | .cont => invalid (.loopControlEscaped name)

/-- Runs bodies in new frames, at most `fuel` inside each other. -/
def invoke (p : Program) : Nat → Invoke
  | 0, _, _, _ => throw .exhausted
  | fuel + 1, name, body, frame => do
    let env := { program := p, invoke := invoke p fuel, fuel }
    flowResult name (← withFrame frame (execBlock env body))

/-- The environment of a run. -/
def Env.ofFuel (p : Program) (fuel : Nat) : Env :=
  { program := p, invoke := Machine.invoke p fuel, fuel }

end Scribe.Machine
