import Scribe.Proofs.Drains

/-!
# Frames are taken off again

Lowering moves through the scope. However it ends, with a result or with an error, every frame that
was put on the scope has been taken off again (`Lower.Keeps`). There is one rule for each way to
build a computation, and then one proof for each function of lowering.

So the only thing that a statement leaves in the scope is the name that it declares, and work from
the queue leaves nothing (`frames_restored`).
-/

namespace Scribe.Lowering

open Scribe.Core

/-- What a computation leaves of the scope: `v` of it is what it was after a result, and `w` of it
after an error. -/
def Lower.Keeps {α : Type} (v w : Scope → Scope) (x : Lower α) : Prop :=
  ∀ c, match x c with
    | .ok _ c' => v c'.scope = v c.scope
    | .error _ c' => w c'.scope = w c.scope

/-- However a computation ends, the scope is what it was. -/
abbrev Lower.Restores {α : Type} (x : Lower α) : Prop :=
  Lower.Keeps id id x

variable {v w : Scope → Scope}

/-! ## Rules -/

namespace Lower.Keeps

variable {α β : Type} {x : Lower α} {f : α → Lower β}

theorem pure {a : α} : Keeps v w (pure a : Lower α) :=
  fun _ => rfl

variable {e : LowerError} {test : Program → Checked α}

theorem throw : Keeps v w (throw e : Lower α) :=
  fun _ => rfl

theorem inspect {test : Program → Scope → Checked α} : Keeps v w (Lower.inspect test) := by
  intro c
  unfold Lower.inspect
  cases test c.program c.scope with
  | ok a | error e => rfl

theorem check : Keeps v w (Lower.check test) :=
  show Keeps v w (Lower.inspect fun p _ => test p) from inspect

theorem build {act : Build α} : Keeps v w (Lower.build act) := by
  intro c
  unfold Lower.build
  cases act c.program with
  | ok a p | error e p => rfl

/-- One step after another, where what the first keeps of the scope is enough. -/
theorem andThen {u : Scope → Scope} (hx : Keeps u id x) (hf : ∀ a, Keeps v w (f a))
    (hu : ∀ {s s'}, u s = u s' → v s = v s' ∧ w s = w s') : Keeps v w (x >>= f) := by
  intro c
  have hscope := hx c
  cases hrun : x c with
  | ok a c' =>
    rw [hrun] at hscope
    -- the second step begins where the first has ended
    obtain ⟨hv, hw⟩ := hu hscope
    rw [Step.bind_of_ok hrun, ← hv, ← hw]
    exact hf a c'
  | error e c' =>
    rw [hrun] at hscope
    rw [Step.bind_of_error hrun]
    exact congrArg w hscope

theorem bind (hx : Restores x) (hf : ∀ a, Keeps v w (f a)) : Keeps v w (x >>= f) :=
  hx.andThen hf fun h => ⟨congrArg v h, congrArg w h⟩

/-- The frames outside the innermost one are kept if each step keeps them. -/
theorem seq (hx : Keeps List.tail id x) (hf : ∀ a, Keeps List.tail List.tail (f a)) :
    Keeps List.tail List.tail (x >>= f) :=
  hx.andThen hf fun h => ⟨h, h⟩

/-- What keeps all of the scope keeps any part of it. -/
theorem keeps (h : Restores x) : Keeps v w x := by
  intro c
  have hscope := h c
  cases hrun : x c with
  | ok a c' | error e c' =>
    rw [hrun] at hscope
    exact congrArg _ hscope

theorem throw_bind : Keeps v w ((MonadExcept.throw e : Lower α) >>= f) :=
  fun _ => rfl

theorem get_bind {k : Context → Lower α} (hk : ∀ c, Keeps v w (k c)) : Keeps v w (get >>= k) :=
  fun c => hk c c

/-- A check in front of the rest. -/
theorem check_bind (hf : ∀ a, Keeps v w (f a)) : Keeps v w (Lower.check test >>= f) :=
  .bind check hf

/-- A result after the last step. -/
theorem andReturn (hx : Keeps v w x) {k : α → β} : Keeps v w (x >>= fun a => Pure.pure (k a)) := by
  intro c
  have hscope := hx c
  cases hrun : x c with
  | ok a c' =>
    rw [hrun] at hscope
    rw [Step.bind_of_ok hrun]
    exact hscope
  | error e c' =>
    rw [hrun] at hscope
    rw [Step.bind_of_error hrun]
    exact hscope

theorem ite {test : Prop} [Decidable test] {y : Lower α} (hx : Keeps v w x) (hy : Keeps v w y) :
    Keeps v w (if test then x else y) := by
  split
  · exact hx
  · exact hy

/-- A name goes into the innermost frame. -/
theorem bindName {b : Binding} : Keeps List.tail id (Lower.bind b) := by
  intro c
  unfold Lower.bind
  cases hbind : c.scope.bind b with
  | ok scope => exact Scope.bind_tail hbind
  | error e => rfl

/-- A frame is taken off again, with what was bound in it. -/
theorem withFrame {frame : Frame} (h : Keeps List.tail List.tail x) :
    Keeps v w (Lower.withFrame frame x) := by
  intro c
  have hinner := h { c with scope := frame :: c.scope }
  unfold Lower.withFrame
  cases hrun : x { c with scope := frame :: c.scope } with
  | ok a c' | error e c' =>
    rw [hrun] at hinner
    exact congrArg _ hinner

/-- The scope of a piece of work is not seen after it. -/
theorem inScope {scope : Scope} : Keeps v w (Lower.inScope scope x) := by
  intro c
  unfold Lower.inScope
  cases x { c with scope } with
  | ok a c' | error e c' => rfl

end Lower.Keeps

open Lower (Keeps Restores)

/-! ## Expressions -/

theorem expectType_restores {expected : Ty} {e : Expr} : Restores (expectType expected e) :=
  .check_bind fun _ => .andReturn .check

theorem nullAt_restores {t : Ty} : Restores (nullAt t) :=
  .ite .throw .pure

theorem requireArity_restores {name : String} {expected found : Nat} :
    Restores (requireArity name expected found) :=
  .ite .pure .throw

theorem lowerCall_restores {receiver : Option Expr} {function : FunctionId} {count : Nat}
    {l : List Ty → Lower (List Expr)} (h : ∀ types, Restores (l types)) :
    Restores (lowerCall receiver function count l) :=
  .check_bind fun _ => .bind requireArity_restores fun _ => .andReturn (h _)

mutual

theorem lowerExpr_restores : ∀ e : Syntax.Expr, Restores (lowerExpr e)
  | .bool _ | .int _ | .rune _ | .string _ => .pure
  | .list items | .set items => .bind (lowerExprs_restores items) fun _ => .andReturn .check
  | .map entries =>
    .bind (lowerEntries_restores entries) fun _ => .check_bind fun _ => .andReturn .check
  | .emptyList _ | .emptySet _ | .new _ => .andReturn .check
  | .emptyMap _ _ => .check_bind fun _ => .andReturn .check
  | .call (.function _) es =>
    .bind .inspect fun _ => .andReturn (lowerCall_restores (lowerArguments_restores · es))
  | .call (.method receiver _) es => by
    refine .bind (lowerExpr_restores receiver) fun _ => .check_bind fun _ => ?_
    split
    · exact .andReturn (lowerOnly_restores es)
    · exact .andReturn requireArity_restores
    · exact .check_bind fun _ => .andReturn (lowerCall_restores (lowerArguments_restores · es))
  | .lookup container key =>
    .bind (lowerExpr_restores container) fun _ => .bind (lowerExpr_restores key) fun _ =>
      .check_bind fun _ => .check_bind fun _ => .andReturn .check
  | .property operand _ | .length operand | .unary _ operand | .pop operand =>
    .bind (lowerExpr_restores operand) fun _ => .check_bind fun _ => .andReturn .check
  | .contains container value =>
    .bind (lowerExpr_restores container) fun _ => .check_bind fun _ => .check_bind fun _ =>
      .bind (lowerExpr_restores value) fun _ => .andReturn expectType_restores
  | .binary _ left right =>
    .ite .throw <|
      .ite (.bind (lowerExpr_restores right) fun _ => .check_bind fun _ =>
        .andReturn nullAt_restores) <|
      .ite (.bind (lowerExpr_restores left) fun _ => .check_bind fun _ =>
        .andReturn nullAt_restores) <|
      .bind (lowerExpr_restores left) fun _ => .bind (lowerExpr_restores right) fun _ =>
        .check_bind fun _ => .check_bind fun _ => .andReturn .check
  | .var _ => .inspect
  | .self => .get_bind fun _ => by
    split
    · exact .pure
    · exact .throw
  | .null => .throw

theorem lowerExprs_restores : ∀ es : List Syntax.Expr, Restores (lowerExprs es)
  | [] => .pure
  | e :: rest => .bind (lowerExpr_restores e) fun _ => .andReturn (lowerExprs_restores rest)

theorem lowerEntries_restores : ∀ entries : List (Syntax.Expr × Syntax.Expr),
    Restores (lowerEntries entries)
  | [] => .pure
  | (key, value) :: rest =>
    .bind (lowerExpr_restores key) fun _ => .bind (lowerExpr_restores value) fun _ =>
      .andReturn (lowerEntries_restores rest)

theorem lowerArguments_restores : ∀ types es,
    Restores (lowerArguments types es)
  | _, [] => .pure
  | [], _ :: _ => .throw
  | _ :: types, e :: rest =>
    .bind (lowerExpr_restores e) fun _ => .bind expectType_restores fun _ =>
      .andReturn (lowerArguments_restores types rest)

theorem lowerOnly_restores {name : String} {item : Ty} :
    ∀ es : List Syntax.Expr, Restores (lowerOnly name item es)
  | [e] => .bind (lowerExpr_restores e) fun _ => expectType_restores
  | [] | _ :: _ :: _ => .throw

end

theorem lowerExpecting_restores {expected : Ty} (e : Syntax.Expr) :
    Restores (lowerExpecting expected e) :=
  .ite nullAt_restores (lowerExpr_restores e)

theorem lowerPlace_restores (e : Syntax.Expr) : Restores (lowerPlace e) := by
  cases e with
  | var _ | lookup _ _ =>
    refine .bind (lowerExpr_restores _) fun _ => ?_
    split
    · exact .throw
    · exact .pure
  | property _ _ => exact lowerExpr_restores _
  | _ => exact .throw

theorem lowerCondition_restores (e : Syntax.Expr) : Restores (lowerCondition e) :=
  .bind (lowerExpr_restores e) fun _ => .andReturn .check

/-! ## Statements -/

theorem lowerReturn_restores : ∀ value : Option Syntax.Expr, Restores (lowerReturn value)
  | none => .bind .inspect fun _ => .check_bind fun _ => .andReturn .check
  | some e => .bind .inspect fun _ => .check_bind fun _ =>
    .bind (.andReturn (lowerExpecting_restores e)) fun _ => .andReturn .check

theorem lowerCallStmt_restores (es : List Syntax.Expr) :
    ∀ target : Syntax.Target, Restores (lowerCallStmt target es)
  | .function _ =>
    .bind .inspect fun _ => .andReturn (lowerCall_restores (lowerArguments_restores · es))
  | .method receiver _ => by
    refine .bind (lowerExpr_restores receiver) fun _ => .check_bind fun _ => ?_
    split
    · exact .andReturn (lowerOnly_restores es)
    · exact .andReturn (lowerOnly_restores es)
    · exact .andReturn requireArity_restores
    · exact .check_bind fun _ => .andReturn (lowerCall_restores (lowerArguments_restores · es))

mutual

/-- A declaration binds its name in the innermost frame when nothing more can fail. -/
theorem lowerStmt_keeps : ∀ s : Syntax.Stmt, Keeps List.tail id (lowerStmt s)
  | .declare _ value =>
    .check_bind fun _ => .bind (lowerExpr_restores value) fun _ => .check_bind fun _ =>
      .ite .throw_bind <| .bind .build fun _ => .andReturn .bindName
  | .assign place value =>
    .bind (lowerPlace_restores place) fun _ => .check_bind fun _ =>
      .bind (lowerExpecting_restores value) fun _ => .andReturn expectType_restores.keeps
  | .conditional arms otherwise =>
    .ite .throw_bind <| .bind (lowerArms_restores arms) fun _ =>
      .andReturn (lowerOtherwise_restores otherwise).keeps
  | .forLoop start condition after body =>
    .withFrame <| .seq (lowerPart_keeps start) fun _ => .bind (lowerCondition_restores condition)
      fun _ => .seq (lowerPart_keeps after) fun _ => .andReturn (.withFrame (lowerStmts_keeps body))
  | .forEach _ iterable body =>
    .check_bind fun _ => .bind (lowerExpr_restores iterable) fun _ => .check_bind fun _ =>
      .check_bind fun _ => .bind .build fun _ =>
        .andReturn (.withFrame (.withFrame (lowerStmts_keeps body)))
  | .ret value => (lowerReturn_restores value).keeps
  | .brk | .cont => .get_bind fun _ => .ite .pure .throw
  | .add container value | .push container value =>
    .bind (lowerExpr_restores container) fun _ => .check_bind fun _ => .check_bind fun _ =>
      .bind (lowerExpr_restores value) fun _ => .andReturn expectType_restores.keeps
  | .pop container =>
    .bind (lowerExpr_restores container) fun _ => .check_bind fun _ => .andReturn .check
  | .call target es => (lowerCallStmt_restores es target).keeps

theorem lowerStmts_keeps : ∀ ss : List Syntax.Stmt, Keeps List.tail List.tail (lowerStmts ss)
  | [] => .pure
  | s :: rest => .seq (lowerStmt_keeps s) fun _ => .andReturn (lowerStmts_keeps rest)

theorem lowerPart_keeps : ∀ s : Option Syntax.Stmt, Keeps List.tail id (lowerPart s)
  | none => .pure
  | some s => .andReturn (lowerStmt_keeps s)

theorem lowerArms_restores :
    ∀ arms : List (Syntax.Expr × List Syntax.Stmt), Restores (lowerArms arms)
  | [] => .pure
  | (condition, block) :: rest =>
    .bind (lowerCondition_restores condition) fun _ =>
      .bind (.withFrame (lowerStmts_keeps block)) fun _ => .andReturn (lowerArms_restores rest)

theorem lowerOtherwise_restores :
    ∀ otherwise : Option (List Syntax.Stmt), Restores (lowerOtherwise otherwise)
  | none => .pure
  | some block => .andReturn (.withFrame (lowerStmts_keeps block))

end

/-! ## The discipline of frames -/

/-- The state in which a computation ends, with a result or with an error. -/
def Step.final {ε σ α : Type} : EStateM.Result ε σ α → σ
  | .ok _ s | .error _ s => s

/-- What a statement leaves behind: the scope it was given, or that scope with the name that it
declares, bound to the new local. -/
inductive Context.Leaves (c : Context) :
    Syntax.Stmt → EStateM.Result LowerError Context Stmt → Prop where
  | fails {s : Syntax.Stmt} {e : LowerError} {c' : Context} (hscope : c'.scope = c.scope) :
      c.Leaves s (.error e c')
  | declares {name : String} {value : Syntax.Expr} {e : Expr} {t : Ty} {scope : Scope}
      (hscope : Scope.Extends ⟨name, ⟨c.program.locals.size⟩⟩ c.scope scope) :
      c.Leaves (.declare name value) (.ok (.declare ⟨c.program.locals.size⟩ e)
        ⟨c.program.withLocal ⟨name, t, .declared⟩, scope⟩)
  | other {s : Syntax.Stmt} {s' : Stmt} {c' : Context}
      (hs : ∀ name value, s ≠ .declare name value) (hscope : c'.scope = c.scope) :
      c.Leaves s (.ok s' c')

theorem lowerStmt_leaves (s : Syntax.Stmt) (c : Context) : c.Leaves s (lowerStmt s c) := by
  have hkeeps := lowerStmt_keeps s c
  cases hrun : lowerStmt s c with
  | error e c' =>
    rw [hrun] at hkeeps
    exact .fails hkeeps
  | ok s' c' =>
    -- which names are bound is told by the rules of lowering
    have helab := (lowerStmt_eq_ok s).mp hrun
    cases helab with
    | declare hname he ht hvoid hbind => exact .declares (Scope.extends_of_bind hbind)
    | simple hs => exact .other (by rintro _ _ rfl; cases hs) rfl
    | conditional _ harms hotherwise =>
      exact .other (by rintro _ _ ⟨⟩) (hotherwise.adds.2.trans harms.adds.2)
    | forLoop | forEach => exact .other (by rintro _ _ ⟨⟩) rfl

/-- Lowering a statement keeps the frames around the innermost one. -/
theorem Context.Leaves.frames {c : Context} {s : Syntax.Stmt}
    {r : EStateM.Result LowerError Context Stmt} (h : c.Leaves s r) :
    (Step.final r).scope.length = c.scope.length ∧ (Step.final r).scope.tail = c.scope.tail := by
  cases h with
  | fails hscope | other _ hscope => exact ⟨congrArg _ hscope, congrArg _ hscope⟩
  | declares hscope =>
    generalize c.scope = outer at hscope ⊢
    cases hscope with
    | block | forLoop => exact ⟨rfl, rfl⟩

theorem drain_restores {limit : Option Nat} (q : Queue) : Restores (drain limit q) := by
  induction q using drain.induct with
  | case1 q hq =>
    rw [drain_of_none hq]
    exact .pure
  | case2 q scope body rest hq ih =>
    rw [drain_of_body hq]
    exact .check_bind fun _ => .bind .inScope fun _ => ih
  | case3 q scope id m rest hq ih =>
    rw [drain_of_members hq]
    exact .check_bind fun _ => .bind .inScope ih

/-- Frames are taken off again, whether lowering succeeds or fails. Blocks, expressions, places,
arguments, calls and work from the queue leave the scope as it was, whatever it was, and so does the
queue. A statement keeps all frames but the innermost one, and that one as well unless it declares a
name. -/
theorem frames_restored :
    (∀ block, Restores (lowerBlock block)) ∧ (∀ e, Restores (lowerExpr e)) ∧
    (∀ e, Restores (lowerPlace e)) ∧ (∀ types es, Restores (lowerArguments types es)) ∧
    (∀ receiver function es,
      Restores (lowerCall receiver function es.length (lowerArguments · es))) ∧
    (∀ s c, c.Leaves s (lowerStmt s c) ∧
      (Step.final (lowerStmt s c)).scope.length = c.scope.length ∧
      (Step.final (lowerStmt s c)).scope.tail = c.scope.tail) ∧
    (∀ scope body, Restores (Lower.inScope scope (runBody body))) ∧
    (∀ scope model m, Restores (Lower.inScope scope (memberBodies model m))) ∧
    ∀ limit q, Restores (drain limit q) :=
  ⟨fun block => .withFrame (lowerStmts_keeps block), lowerExpr_restores, lowerPlace_restores,
    lowerArguments_restores, fun _ _ es => lowerCall_restores (lowerArguments_restores · es),
    fun s c => ⟨lowerStmt_leaves s c, (lowerStmt_leaves s c).frames⟩,
    fun _ _ => .inScope, fun _ _ _ => .inScope, fun _ => drain_restores⟩

end Scribe.Lowering
