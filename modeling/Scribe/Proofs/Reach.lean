import Scribe.Machine.Exec
import Scribe.Proofs.Inversion
import Scribe.Proofs.Occurrence

/-!
# How execution comes to a statement

While a statement is executed, the statements inside it are executed, each in a state of its own.
`Enters` says how execution goes from a statement to one directly inside it: into an arm of a
conditional, into a turn of a loop, or into the first or last part of a `for`. `Comes` goes on in
that way to any depth, and `Reaches` begins at a block.

The relations also collect the locals whose binding was executed on the way.
-/

namespace Scribe.Machine

open Scribe.Core
open Scribe.Lowering.Step (bind_of_ok)

variable {σ σ' σ1 σ2 : State} {flow : Flow} {body : Exec Flow}

variable {α : Type} {x : Exec α} {frame : Frame}

theorem withFrame_of_ok {a : α} (hx : x { σ with frames := frame :: σ.frames } = .ok a σ') :
    Exec.withFrame frame x σ = .ok a { σ' with frames := σ'.frames.tail } := by
  rw [Exec.withFrame, hx]

theorem withFrame_of_error {stop : Stop}
    (hx : x { σ with frames := frame :: σ.frames } = .error stop σ') :
    Exec.withFrame frame x σ = .error stop { σ' with frames := σ'.frames.tail } := by
  rw [Exec.withFrame, hx]

/-! ## Blocks -/

section Blocks

variable {env : Env} {before rest : List Stmt} {t : Stmt} {σ σ1 σ2 : State}

theorem execBlock_cons_of_next (h : exec env t σ = .ok .next σ1) :
    execBlock env (t :: rest) σ = execBlock env rest σ1 := by
  rw [execBlock, bind_of_ok h]

theorem execBlock_cons_of_ne_next {flow : Flow} (h : exec env t σ = .ok flow σ1)
    (hflow : flow ≠ .next) : execBlock env (t :: rest) σ = .ok flow σ1 := by
  rw [execBlock, bind_of_ok h]
  cases flow with
  | next => exact absurd rfl hflow
  | brk | cont | ret => rfl

/-- Statements that were executed to their end are behind. -/
theorem execBlock_append (h : execBlock env before σ = .ok .next σ1) :
    execBlock env (before ++ rest) σ = execBlock env rest σ1 := by
  induction before generalizing σ with
  | nil =>
    cases h
    rfl
  | cons s before ih =>
    cases hs : exec env s σ with
    | error stop σ2 =>
      rw [execBlock] at h
      change EStateM.bind _ _ σ = _ at h
      rw [EStateM.bind, hs] at h
      cases h
    | ok flow σ2 =>
      by_cases hflow : flow = .next
      · subst hflow
        rw [execBlock_cons_of_next hs] at h
        rw [List.cons_append, execBlock_cons_of_next hs]
        exact ih h
      · rw [execBlock_cons_of_ne_next hs hflow] at h
        cases h
        exact absurd rfl hflow

/-- The first statement that gives a signal ends its block with that signal. -/
theorem execBlock_of_flow {flow : Flow} (hbefore : execBlock env before σ = .ok .next σ1)
    (h : exec env t σ1 = .ok flow σ2) (hflow : flow ≠ .next) :
    execBlock env (before ++ t :: rest) σ = .ok flow σ2 := by
  rw [execBlock_append hbefore]
  exact execBlock_cons_of_ne_next h hflow

end Blocks

/-! ## Arms -/

/-- The conditions of some arms are evaluated and none of them holds. -/
inductive Passes (env : Env) : List (Expr × List Stmt) → State → State → Prop where
  | nil (σ : State) : Passes env [] σ σ
  | cons {condition block arms σ σ1 σ2} (hcondition : truth (eval env condition) σ = .ok false σ1)
      (harms : Passes env arms σ1 σ2) : Passes env ((condition, block) :: arms) σ σ2

variable {env : Env} {arms : List (Expr × List Stmt)} {otherwise again : Exec Flow}
  {condition : Exec Bool} {after : Exec Unit} {bind : Value → Exec Unit}

theorem Passes.execArms {before : List (Expr × List Stmt)} {σ σ1 : State}
    (h : Passes env before σ σ1) :
    execArms env (before ++ arms) otherwise σ = execArms env arms otherwise σ1 := by
  induction h with
  | nil σ => rfl
  | cons hcondition _ ih =>
    rw [List.cons_append, Machine.execArms, bind_of_ok hcondition]
    exact ih

theorem execArms_of_true {condition : Expr} {block : List Stmt} {σ σ1 : State}
    (h : truth (eval env condition) σ = .ok true σ1) :
    execArms env ((condition, block) :: arms) otherwise σ = execBlock env block σ1 := by
  rw [execArms, bind_of_ok h]
  rfl

/-! ## Turns of loops -/

/-- What a loop does after a turn: `again`, unless the turn broke off or returned. -/
def goOn (again : Exec Flow) : Flow → Exec Flow
  | .brk => return .next
  | .ret value => return .ret value
  | .next | .cont => again

/-- A way to end a turn after which the loop goes on. -/
def Flow.Completes (flow : Flow) : Prop :=
  flow = .next ∨ flow = .cont

theorem goOn_of_completes (h : flow.Completes) : goOn again flow = again := by
  rcases h with rfl | rfl <;> rfl

/-- Whole turns of a loop with a condition, as many as the number says. -/
inductive Turns (condition : Exec Bool) (body : Exec Flow) (after : Exec Unit) :
    Nat → State → State → Prop where
  | zero (σ : State) : Turns condition body after 0 σ σ
  | succ {n flow σ σ1 σ2 σ3 σ4} (hcondition : condition σ = .ok true σ1)
      (hbody : body σ1 = .ok flow σ2) (hflow : flow.Completes) (hafter : after σ2 = .ok () σ3)
      (hrest : Turns condition body after n σ3 σ4) : Turns condition body after (n + 1) σ σ4

theorem repeatWhile_turn (k : Nat) (hcondition : condition σ = .ok true σ1)
    (hbody : body σ1 = .ok flow σ2) :
    repeatWhile condition body after (k + 1) σ =
      goOn (do after; repeatWhile condition body after k) flow σ2 := by
  rw [repeatWhile, bind_of_ok hcondition]
  simp only [if_true]
  rw [bind_of_ok hbody]
  cases flow <;> rfl

theorem Turns.repeatWhile {n : Nat} (h : Turns condition body after n σ σ') (k : Nat) :
    repeatWhile condition body after (n + k) σ = repeatWhile condition body after k σ' := by
  induction h with
  | zero σ => rw [Nat.zero_add]
  | @succ n flow σ σ1 σ2 σ3 σ4 hcondition hbody hflow hafter _ ih =>
    rw [show n + 1 + k = (n + k) + 1 by omega, repeatWhile_turn _ hcondition hbody,
      goOn_of_completes hflow, bind_of_ok hafter]
    exact ih

/-- Whole turns of a loop over items, one for each of the items. -/
inductive Visits (bind : Value → Exec Unit) (body : Exec Flow) :
    List Value → State → State → Prop where
  | nil (σ : State) : Visits bind body [] σ σ
  | cons {v items flow σ σ1 σ2 σ3} (hbind : bind v σ = .ok () σ1) (hbody : body σ1 = .ok flow σ2)
      (hflow : flow.Completes) (hrest : Visits bind body items σ2 σ3) :
      Visits bind body (v :: items) σ σ3

theorem repeatFor_turn {v : Value} {items : List Value} (hbind : bind v σ = .ok () σ1)
    (hbody : body σ1 = .ok flow σ2) :
    repeatFor bind body (v :: items) σ = goOn (repeatFor bind body items) flow σ2 := by
  rw [repeatFor, bind_of_ok hbind, bind_of_ok hbody]
  cases flow <;> rfl

theorem Visits.repeatFor {seen : List Value} (h : Visits bind body seen σ σ') (items : List Value) :
    repeatFor bind body (seen ++ items) σ = repeatFor bind body items σ' := by
  induction h with
  | nil σ => rfl
  | cons hbind hbody hflow _ ih =>
    rw [List.cons_append, repeatFor_turn hbind hbody, goOn_of_completes hflow]
    exact ih

/-! ## From a statement to one inside it -/

/-- The local that a statement binds for what follows it. -/
def declared : Stmt → List LocalId
  | .declare id _ => [id]
  | _ => []

/-- `Begins env s σ body again bound σ'` says that the loop `s`, executed in state `σ`, begins a
turn: its body is executed in state `σ'`. `again` is what the loop does after that turn, if it goes
on at all, and `bound` are the locals that the loop has bound for its body. -/
inductive Begins (env : Env) :
    Stmt → State → List Stmt → Exec Flow → List LocalId → State → Prop where
  | forLoop {start after condition body n k σ σ1 σ2 σ3} (hstart : execPart env start σ = .ok () σ1)
      (hturns : Turns (truth (eval env condition)) (execBlock env body) (execPart env after)
        n σ1 σ2)
      (hfuel : env.fuel = n + (k + 1)) (hcondition : truth (eval env condition) σ2 = .ok true σ3) :
      Begins env (.forLoop start condition after body) σ body
        (do
          execPart env after
          repeatWhile (truth (eval env condition)) (execBlock env body) (execPart env after) k)
        (start.toList.flatMap declared) σ3
  | forEach {item iterable kind itemType body v container seen items σ σ1 σ2 σ3 σ4}
      (hiterable : eval env iterable σ = .ok container σ1)
      (hitems : iterationItems container σ1 = .ok (seen ++ v :: items) σ2)
      (hseen : Visits (Exec.setLocal item) (execBlock env body) seen σ2 σ3)
      (hbind : Exec.setLocal item v σ3 = .ok () σ4) :
      Begins env (.forEach item iterable kind itemType body) σ body
        (repeatFor (Exec.setLocal item) (execBlock env body) items) [item] σ4

/-- A turn that ends decides how its loop goes on. -/
theorem Begins.exec {s : Stmt} {body : List Stmt} {bound : List LocalId}
    (h : Begins env s σ body again bound σ1) (hbody : execBlock env body σ1 = .ok flow σ2) :
    exec env s σ = goOn again flow σ2 := by
  cases h with
  | forLoop hstart hturns hfuel hcondition =>
    rw [Machine.exec, bind_of_ok hstart, hfuel, hturns.repeatWhile]
    exact repeatWhile_turn _ hcondition hbody
  | forEach hiterable hitems hseen hbind =>
    rw [Machine.exec, bind_of_ok hiterable, bind_of_ok hitems, hseen.repeatFor]
    exact repeatFor_turn hbind hbody

/-- Where a statement stands in the one around it. -/
inductive Place where
  /-- In the block of a conditional. -/
  | arm
  /-- In the body of a loop. -/
  | turn
  /-- The first or the last part of a `for`. -/
  | part
  deriving DecidableEq, Repr

/-- `Enters env s σ place bound t σ'` says that the execution of `s` in state `σ` comes to execute
`t`, which stands directly inside `s`, in state `σ'`. -/
inductive Enters (env : Env) : Stmt → State → Place → List LocalId → Stmt → State → Prop where
  | arm {arms later condition before rest otherwise t σ σ1 σ2 σ3} (harms : Passes env arms σ σ1)
      (hcondition : truth (eval env condition) σ1 = .ok true σ2)
      (hbefore : execBlock env before σ2 = .ok .next σ3) :
      Enters env (.conditional (arms ++ (condition, before ++ t :: rest) :: later) otherwise) σ .arm
        (before.flatMap declared) t σ3
  | otherwise {arms before rest t σ σ1 σ2} (harms : Passes env arms σ σ1)
      (hbefore : execBlock env before σ1 = .ok .next σ2) :
      Enters env (.conditional arms (some (before ++ t :: rest))) σ .arm (before.flatMap declared)
        t σ2
  | turn {s t before rest again bound σ σ1 σ2}
      (hbegins : Begins env s σ (before ++ t :: rest) again bound σ1)
      (hbefore : execBlock env before σ1 = .ok .next σ2) :
      Enters env s σ .turn (bound ++ before.flatMap declared) t σ2
  | start {s after condition body σ} :
      Enters env (.forLoop (some s) condition after body) σ .part [] s σ
  | after {s start condition body again bound flow σ σ1 σ2}
      (hbegins : Begins env (.forLoop start condition (some s) body) σ body again bound σ1)
      (hbody : execBlock env body σ1 = .ok flow σ2) (hflow : flow.Completes) :
      Enters env (.forLoop start condition (some s) body) σ .part bound s σ2

/-- `Comes env P s σ bound t σ'` says that the execution of `s` in state `σ` comes to execute `t`,
which is `s` or stands inside it, in state `σ'`, and enters only places with `P` on its way. -/
inductive Comes (env : Env) (P : Place → Prop) :
    Stmt → State → List LocalId → Stmt → State → Prop where
  | here (s : Stmt) (σ : State) : Comes env P s σ [] s σ
  | inner {s u t place bound bound' σ σ1 σ2} (hplace : P place)
      (henters : Enters env s σ place bound u σ1) (hcomes : Comes env P u σ1 bound' t σ2) :
      Comes env P s σ (bound ++ bound') t σ2

/-- `Reaches env P block σ bound t σ'` says that the execution of a block in state `σ` comes to
execute `t`, in state `σ'`. -/
inductive Reaches (env : Env) (P : Place → Prop) :
    List Stmt → State → List LocalId → Stmt → State → Prop where
  | intro {before rest u t bound σ σ1 σ2} (hbefore : execBlock env before σ = .ok .next σ1)
      (hcomes : Comes env P u σ1 bound t σ2) :
      Reaches env P (before ++ u :: rest) σ (before.flatMap declared ++ bound) t σ2

namespace Reaches

variable {env : Env} {P : Place → Prop} {s t : Stmt} {block : List Stmt} {bound : List LocalId}
  {σ σ1 σ2 : State}

theorem head (h : Comes env P s σ bound t σ1) : Reaches env P (s :: block) σ bound t σ1 :=
  @intro env P [] block s t bound σ σ σ1 rfl h

theorem tail (hs : exec env s σ = .ok .next σ1) (h : Reaches env P block σ1 bound t σ2) :
    Reaches env P (s :: block) σ (declared s ++ bound) t σ2 := by
  cases h with
  | @intro before rest u _ bound _ _ _ hbefore hcomes =>
    have hall : execBlock env (s :: before) σ = .ok .next _ :=
      (execBlock_cons_of_next hs).trans hbefore
    rw [← List.append_assoc, ← List.flatMap_cons, ← List.cons_append]
    exact .intro hall hcomes

end Reaches

end Scribe.Machine
