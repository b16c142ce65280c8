import Scribe.Proofs.Reach
import Scribe.Proofs.WellFormed

/-!
# What becomes of `return`, `break` and `continue`

A signal goes outwards through the blocks of conditionals and of loops until something takes it up:
a loop takes up `break` and `continue`, the call takes up `return`. The first and the last part of a
`for` are the exception. What they end in has no effect, so a signal that is given there is lost.
-/

namespace Scribe.Machine

open Scribe.Core
open Scribe.Lowering.Step (bind_of_ok)
open Scribe.Lowering (lower lower_sound)

variable {env : Env} {P : Place → Prop} {s t : Stmt} {block : List Stmt} {place : Place}
  {bound : List LocalId} {flow : Flow} {σ σ1 σ2 : State}

/-! ## One step outwards -/

/-- A conditional ends in the signal that a statement of its block gives. -/
theorem Enters.exec_of_arm (h : Enters env s σ .arm bound t σ1) (ht : exec env t σ1 = .ok flow σ2)
    (hflow : flow ≠ .next) : exec env s σ = .ok flow σ2 := by
  cases h with
  | arm harms hcondition hbefore =>
    rw [exec, harms.execArms, execArms_of_true hcondition]
    exact execBlock_of_flow hbefore ht hflow
  | @otherwise arms _ _ _ _ _ _ harms hbefore =>
    rw [exec, ← List.append_nil arms, harms.execArms]
    exact execBlock_of_flow hbefore ht hflow

/-- A return leaves the statement around it, if that is not a `for` that has it as its first or last
part. -/
theorem Enters.exec_of_ret {v : Value} (h : Enters env s σ place bound t σ1)
    (hplace : place ≠ .part) (ht : exec env t σ1 = .ok (.ret v) σ2) :
    exec env s σ = .ok (.ret v) σ2 := by
  have hret : Flow.ret v ≠ .next := by rintro ⟨⟩
  cases place with
  | arm => exact h.exec_of_arm ht hret
  | turn =>
    cases h with
    | turn hbegins hbefore => exact hbegins.exec (execBlock_of_flow hbefore ht hret)
  | part => exact absurd rfl hplace

/-- A `for` tests its condition next, whatever its first or last part ended in. -/
theorem Enters.exec_of_part (h : Enters env s σ .part bound t σ1)
    (ht : exec env t σ1 = .ok flow σ2) :
    ∃ start condition after body k, s = .forLoop start condition after body ∧
      exec env s σ = repeatWhile (truth (eval env condition)) (execBlock env body)
        (execPart env after) k σ2 := by
  have hpart : execPart env (some t) σ1 = .ok () σ2 := by
    rw [execPart, bind_of_ok ht]
    rfl
  cases h with
  | start =>
    refine ⟨_, _, _, _, env.fuel, rfl, ?_⟩
    rw [exec, bind_of_ok hpart]
  | after hbegins hbody hflow =>
    have hloop := hbegins.exec hbody
    rw [goOn_of_completes hflow] at hloop
    cases hbegins with
    | @forLoop _ _ _ _ n k =>
      refine ⟨_, _, _, _, k, rfl, ?_⟩
      rw [hloop, bind_of_ok hpart]

/-! ## All the way -/

theorem Comes.exec_of_arms (h : Comes env (· = .arm) s σ bound t σ1)
    (ht : exec env t σ1 = .ok flow σ2) (hflow : flow ≠ .next) : exec env s σ = .ok flow σ2 := by
  induction h with
  | here s σ => exact ht
  | inner hplace henters _ ih =>
    subst hplace
    exact henters.exec_of_arm (ih ht) hflow

theorem Comes.exec_of_ret {v : Value} (h : Comes env (· ≠ .part) s σ bound t σ1)
    (ht : exec env t σ1 = .ok (.ret v) σ2) : exec env s σ = .ok (.ret v) σ2 := by
  induction h with
  | here s σ => exact ht
  | inner hplace henters _ ih => exact henters.exec_of_ret hplace (ih ht)

theorem Reaches.execBlock_of_arms (h : Reaches env (· = .arm) block σ bound t σ1)
    (ht : exec env t σ1 = .ok flow σ2) (hflow : flow ≠ .next) :
    execBlock env block σ = .ok flow σ2 := by
  cases h with
  | intro hbefore hcomes => exact execBlock_of_flow hbefore (hcomes.exec_of_arms ht hflow) hflow

theorem Reaches.execBlock_of_ret {v : Value} (h : Reaches env (· ≠ .part) block σ bound t σ1)
    (ht : exec env t σ1 = .ok (.ret v) σ2) : execBlock env block σ = .ok (.ret v) σ2 := by
  cases h with
  | intro hbefore hcomes =>
    exact execBlock_of_flow hbefore (hcomes.exec_of_ret ht) (by rintro ⟨⟩)

/-! ## The innermost loop -/

/-- `t`, executed in state `σ1`, stands in a turn of the loop `s` that was entered in state `σ`, and
in no loop inside `s`. `again` is what `s` does after that turn. -/
def InTurn (env : Env) (s : Stmt) (σ : State) (again : Exec Flow) (t : Stmt) (σ1 : State) : Prop :=
  ∃ body bound σ2 bound', Begins env s σ body again bound σ2 ∧
    Reaches env (· = .arm) body σ2 bound' t σ1

/-- `t`, executed in state `σ1`, stands in the first or last part of the `for` loop `s` that was
entered in state `σ`, and in no loop inside that part. -/
def InPart (env : Env) (s : Stmt) (σ : State) (t : Stmt) (σ1 : State) : Prop :=
  ∃ bound u σ2 bound', Enters env s σ .part bound u σ2 ∧ Comes env (· = .arm) u σ2 bound' t σ1

/-- The place that execution has come to stands in no loop, or it has an innermost one. -/
theorem Comes.innermost (h : Comes env P s σ bound t σ1) :
    Comes env (· = .arm) s σ bound t σ1 ∨
      ∃ loop bound' σ', Comes env P s σ bound' loop σ' ∧
        (InPart env loop σ' t σ1 ∨ ∃ again, InTurn env loop σ' again t σ1) := by
  induction h with
  | here s σ => exact .inl (.here s σ)
  | @inner s u t place bound bound' σ σ1 σ2 hplace henters _ ih =>
    rcases ih with harms | ⟨loop, bound'', σ', hloop, hinner⟩
    · -- nothing but arms below: it depends on the place that was entered here
      cases place with
      | arm => exact .inl (.inner rfl henters harms)
      | part => exact .inr ⟨s, [], σ, .here s σ, .inl ⟨_, _, _, _, henters, harms⟩⟩
      | turn =>
        cases henters with
        | turn hbegins hbefore =>
          exact .inr ⟨s, [], σ, .here s σ,
            .inr ⟨_, _, _, _, _, hbegins, .intro hbefore harms⟩⟩
    · exact .inr ⟨loop, _, σ', .inner hplace henters hloop, hinner⟩

/-- A loop ends with the break, and goes on after the continue, that its body comes to. -/
theorem InTurn.exec {again : Exec Flow} (h : InTurn env s σ again t σ1)
    (ht : exec env t σ1 = .ok flow σ2) (hflow : flow ≠ .next) :
    exec env s σ = goOn again flow σ2 := by
  obtain ⟨body, _, _, _, hbegins, hreaches⟩ := h
  exact hbegins.exec (hreaches.execBlock_of_arms ht hflow)

/-- What stands only in arms and is loose makes the whole statement loose. -/
theorem Comes.loose (h : Comes env (· = .arm) s σ bound t σ1) (ht : t.Loose) : s.Loose := by
  induction h with
  | here s σ => exact ht
  | inner hplace henters _ ih =>
    subst hplace
    cases henters with
    | arm =>
      exact .arm (List.mem_append_right _ (List.mem_cons_self ..))
        (List.mem_append_right _ (List.mem_cons_self ..)) (ih ht)
    | otherwise => exact .otherwise (List.mem_append_right _ (List.mem_cons_self ..)) (ih ht)

/-! ## Lowered programs -/

variable {m : Syntax.Module} {limit : Option Nat} {p : Program} {callable : Callable} {body : Block}

/-- The signals of a callable, in every activation of it.

A `return` that is executed ends the activation with its value, in the state that it leaves, unless
it stands in the first or last part of a `for`. A `break` or `continue` that is executed stands in a
turn of an innermost loop, or in the first or last part of one. From a turn, `break` ends the loop
and `continue` goes on to what the loop does after the turn. From a part no signal has an effect:
the loop tests its condition next. -/
theorem lowered_signals_kept (h : lower m limit = .ok p) (hbody : p.body? callable = some body)
    (fuel : Nat) (name : String) (frame : Frame) (σ : State) :
    (∀ {value target bound σ1 v σ2},
      Reaches (.ofFuel p fuel) (· ≠ .part) body { σ with frames := frame :: σ.frames } bound
        (.ret value target) σ1 →
      exec (.ofFuel p fuel) (.ret value target) σ1 = .ok (.ret v) σ2 →
      invoke p (fuel + 1) name body frame σ = .ok v { σ2 with frames := σ2.frames.tail }) ∧
    (∀ {signal bound σ1}, signal = .brk ∨ signal = .cont →
      Reaches (.ofFuel p fuel) (fun _ => True) body { σ with frames := frame :: σ.frames } bound
        signal σ1 →
      ∃ loop bound' σ', Reaches (.ofFuel p fuel) (fun _ => True) body
          { σ with frames := frame :: σ.frames } bound' loop σ' ∧
        (InPart (.ofFuel p fuel) loop σ' signal σ1 ∨
          ∃ again, InTurn (.ofFuel p fuel) loop σ' again signal σ1)) ∧
    (∀ {loop σ' again σ1}, InTurn (.ofFuel p fuel) loop σ' again .brk σ1 →
      exec (.ofFuel p fuel) loop σ' = .ok .next σ1) ∧
    (∀ {loop σ' again σ1}, InTurn (.ofFuel p fuel) loop σ' again .cont σ1 →
      exec (.ofFuel p fuel) loop σ' = again σ1) ∧
    ∀ {loop bound part flow σ' σ1 σ2}, Enters (.ofFuel p fuel) loop σ' .part bound part σ1 →
      exec (.ofFuel p fuel) part σ1 = .ok flow σ2 →
      ∃ start condition after inner k, loop = .forLoop start condition after inner ∧
        exec (.ofFuel p fuel) loop σ' = repeatWhile (truth (eval (.ofFuel p fuel) condition))
          (execBlock (.ofFuel p fuel) inner) (execPart (.ofFuel p fuel) after) k σ2 := by
  refine ⟨fun hreaches hret => ?_, fun hsignal hreaches => ?_,
    fun hturn => hturn.exec rfl (by rintro ⟨⟩), fun hturn => hturn.exec rfl (by rintro ⟨⟩),
    fun henters hpart => henters.exec_of_part hpart⟩
  · -- the body ends in the return, and the call takes it up
    have hframe := withFrame_of_ok (hreaches.execBlock_of_ret hret)
    show (Exec.withFrame frame (execBlock (.ofFuel p fuel) body) >>= flowResult name) σ = _
    rw [bind_of_ok hframe]
    rfl
  · cases hreaches with
    | @intro before rest u _ _ _ _ _ hbefore hcomes =>
      obtain harms | ⟨loop, bound', σ', hloop, hinner⟩ := hcomes.innermost
      · -- lowering lets no signal stand outside of all loops
        have hloose : u.Loose := harms.loose (by rcases hsignal with rfl | rfl <;> constructor)
        have hu : u ∈ before ++ u :: rest := List.mem_append_right _ (List.mem_cons_self ..)
        exact absurd hloose (((lower_sound h).bodies hbody).control u hu)
      · exact ⟨loop, _, σ', .intro hbefore hloop, hinner⟩

/-! ## Samples -/

/-- A function that breaks off one loop and returns out of another. -/
def leavingLoops : Syntax.Module where
  name := "Loops"
  constants := []
  functions := [
    { name := "main"
      parameters := []
      returnType := .int
      body := [
        .forLoop none (.bool true) none [.conditional [(.bool true, [.brk])] none],
        .forLoop none (.bool true) none [.ret (some (.int 1))],
        .ret (some (.int 2))] }]
  models := []

/-- The loop that `leavingLoops` breaks off. -/
def brokenLoop : Stmt :=
  .forLoop none (.bool true) none [.conditional [(.bool true, [.brk])] none]

/-- The body of `leavingLoops`. -/
def leavingLoopsBody : Block := [
  brokenLoop,
  .forLoop none (.bool true) none [.ret (some (.int 1)) (.function ⟨0⟩)],
  .ret (some (.int 2)) (.function ⟨0⟩)]

/-- The program of `leavingLoops`. -/
def leavingLoopsProgram : Program where
  name := "Loops"
  functions := #[
    { name := "main"
      parameters := []
      returnType := .int
      owner := none
      body := leavingLoopsBody }]
  functionMap := [("main", ⟨0⟩)]

theorem leavingLoops_signals_kept :
    lower leavingLoops none = .ok leavingLoopsProgram ∧
      exec (.ofFuel leavingLoopsProgram 7) brokenLoop { frames := [{}] } =
        .ok .next { frames := [{}] } ∧
      invoke leavingLoopsProgram 8 "main" leavingLoopsBody {} {} = .ok (.int 1) {} := by
  have hlower : lower leavingLoops none = .ok leavingLoopsProgram := by cbv
  have hbody : leavingLoopsProgram.body? (.function ⟨0⟩) = some leavingLoopsBody := rfl
  obtain ⟨hreturn, _, hbreak, _⟩ := lowered_signals_kept hlower hbody 7 "main" {} {}
  have harm : Enters (.ofFuel leavingLoopsProgram 7)
      (.conditional [(.bool true, [.brk])] none) { frames := [{}] } .arm [] .brk
      { frames := [{}] } :=
    @Enters.arm _ [] _ _ [] _ _ _ _ _ _ _ (.nil _) rfl rfl
  have hbegins : Begins (.ofFuel leavingLoopsProgram 7) brokenLoop { frames := [{}] }
      [.conditional [(.bool true, [.brk])] none] _ [] { frames := [{}] } :=
    @Begins.forLoop _ none none _ _ 0 6 _ _ _ _ rfl (.zero _) rfl rfl
  have hbroken := hbreak ⟨_, _, _, _, hbegins, .head (.inner rfl harm (.here _ _))⟩
  have hturn : Enters (.ofFuel leavingLoopsProgram 7)
      (.forLoop none (.bool true) none [.ret (some (.int 1)) (.function ⟨0⟩)])
      { frames := [{}] } .turn [] (.ret (some (.int 1)) (.function ⟨0⟩)) { frames := [{}] } :=
    @Enters.turn _ _ _ [] _ _ _ _ _ _
      (@Begins.forLoop _ none none _ _ 0 6 _ _ _ _ rfl (.zero _) rfl rfl) rfl
  have hreturned := hreturn (.tail hbroken (.head (.inner (by decide) hturn (.here _ _)))) rfl
  exact ⟨hlower, hbroken, hreturned⟩

/-- A function with a return in the first part of a `for`. -/
def lostReturn : Syntax.Module where
  name := "Loops"
  constants := []
  functions := [
    { name := "main"
      parameters := []
      returnType := .int
      body := [.forLoop (some (.ret (some (.int 1)))) (.bool false) none [],
        .ret (some (.int 2))] }]
  models := []

/-- The body of `lostReturn`. -/
def lostReturnBody : Block := [
  .forLoop (some (.ret (some (.int 1)) (.function ⟨0⟩))) (.bool false) none [],
  .ret (some (.int 2)) (.function ⟨0⟩)]

/-- The program of `lostReturn`. -/
def lostReturnProgram : Program where
  name := "Loops"
  functions := #[
    { name := "main"
      parameters := []
      returnType := .int
      owner := none
      body := lostReturnBody }]
  functionMap := [("main", ⟨0⟩)]

/-- The return of `lostReturn` is executed and gives one, but the activation goes on and ends with
two. -/
theorem lostReturn_goes_on :
    lower lostReturn none = .ok lostReturnProgram ∧
      lostReturnProgram.body? (.function ⟨0⟩) = some lostReturnBody ∧
      Reaches (.ofFuel lostReturnProgram 7) (fun _ => True) lostReturnBody { frames := [{}] } []
        (.ret (some (.int 1)) (.function ⟨0⟩)) { frames := [{}] } ∧
      exec (.ofFuel lostReturnProgram 7) (.ret (some (.int 1)) (.function ⟨0⟩))
        { frames := [{}] } = .ok (.ret (.int 1)) { frames := [{}] } ∧
      invoke lostReturnProgram 8 "main" lostReturnBody {} {} = .ok (.int 2) {} := by
  refine ⟨by cbv, rfl, ?_, rfl, by cbv⟩
  exact .head (.inner trivial .start (.here _ _))

end Scribe.Machine
