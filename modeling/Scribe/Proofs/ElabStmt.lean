import Scribe.Proofs.ElabExpr

/-!
# The rules of lowering, for statements

`ElabStmt c s s' c'` says what a statement becomes in a context, and which context it leaves for the
statements after it. Most statements leave the context as it is (`ElabSimple`). A declaration takes a
new local and binds it, and a statement with blocks takes the locals of its blocks and forgets the
names that were bound inside. Lowering a statement succeeds exactly by these rules
(`lowerStmt_eq_ok`).
-/

namespace Scribe.Lowering

open Scribe.Core

/-! ## Rules -/

/-- `e` becomes `e'` where a type is expected, so it may be `null`. -/
inductive ElabAt (p : Program) (scope : Scope) (t : Ty) : Syntax.Expr → Expr → Prop where
  | null (hvoid : t ≠ .void) : ElabAt p scope t .null (.null t)
  | expr {e e'} (he : Elab p scope e e') : ElabAt p scope t e e'

/-- `s` becomes `s'`, for statements that bind nothing and hold no other statements. -/
inductive ElabSimple (p : Program) (scope : Scope) : Syntax.Stmt → Stmt → Prop where
  | assign {place e place' e' t} (hplace : Elab p scope place place') (hisPlace : place'.IsPlace)
      (ht : typeOf p place' = .ok t) (he : ElabAt p scope t e e') (hte : typeOf p e' = .ok t) :
      ElabSimple p scope (.assign place e) (.assign place' e')
  | retNone {callable} (hcallable : scope.enclosingCallable? = some callable)
      (hvoid : p.callableReturnType? callable = some .void) :
      ElabSimple p scope (.ret none) (.ret none callable)
  | retSome {callable e e' t} (hcallable : scope.enclosingCallable? = some callable)
      (ht : p.callableReturnType? callable = some t) (he : ElabAt p scope t e e')
      (hte : typeOf p e' = .ok t) : ElabSimple p scope (.ret (some e)) (.ret (some e') callable)
  | brk (hloop : scope.inLoop = true) : ElabSimple p scope .brk .brk
  | cont (hloop : scope.inLoop = true) : ElabSimple p scope .cont .cont
  | add {a e a' e' item} (ha : Elab p scope a a') (hta : typeOf p a' = .ok (.set item))
      (he : Elab p scope e e') (hte : typeOf p e' = .ok item) :
      ElabSimple p scope (.add a e) (.add a' e')
  | push {a e a' e' item} (ha : Elab p scope a a') (hta : typeOf p a' = .ok (.list item))
      (he : Elab p scope e e') (hte : typeOf p e' = .ok item) :
      ElabSimple p scope (.push a e) (.push a' e')
  | pop {a a' item} (ha : Elab p scope a a') (hta : typeOf p a' = .ok (.list item)) :
      ElabSimple p scope (.pop a) (.pop a')
  | callFunction {name es es' receiver function f}
      (hresolve : resolveFunction p scope name = .ok (receiver, function))
      (hf : p.getFunction? function = some f) (hes : Elabs p scope es es')
      (htypes : es'.map (typeOf p) = f.parameters.map fun q => .ok q.type) :
      ElabSimple p scope (.call (.function name) es) (.call receiver es' function f.returnType)
  | callMethod {r r' t name es es' function f} (hr : Elab p scope r r') (ht : typeOf p r' = .ok t)
      (hresolve : resolveMethod p t name = .ok function) (hf : p.getFunction? function = some f)
      (hes : Elabs p scope es es')
      (htypes : es'.map (typeOf p) = f.parameters.map fun q => .ok q.type) :
      ElabSimple p scope (.call (.method r name) es) (.call (some r') es' function f.returnType)
  | callAdd {r e r' e' item} (hr : Elab p scope r r') (ht : typeOf p r' = .ok (.set item))
      (he : Elab p scope e e') (hte : typeOf p e' = .ok item) :
      ElabSimple p scope (.call (.method r "add") [e]) (.add r' e')
  | callPush {r e r' e' item} (hr : Elab p scope r r') (ht : typeOf p r' = .ok (.list item))
      (he : Elab p scope e e') (hte : typeOf p e' = .ok item) :
      ElabSimple p scope (.call (.method r "push") [e]) (.push r' e')
  | callPop {r r' item} (hr : Elab p scope r r') (ht : typeOf p r' = .ok (.list item)) :
      ElabSimple p scope (.call (.method r "pop") []) (.pop r')

mutual

/-- `s` becomes `s'`, and lowering goes on in `c'`. -/
inductive ElabStmt : Context → Syntax.Stmt → Stmt → Context → Prop where
  | simple {c s s'} (hs : ElabSimple c.program c.scope s s') : ElabStmt c s s' c
  | declare {c name e e' t scope} (hname : checkMemberName name = .ok ())
      (he : Elab c.program c.scope e e') (ht : typeOf c.program e' = .ok t) (hvoid : t ≠ .void)
      (hbind : c.scope.bind ⟨name, ⟨c.program.locals.size⟩⟩ = .ok scope) :
      ElabStmt c (.declare name e) (.declare ⟨c.program.locals.size⟩ e')
        ⟨c.program.withLocal ⟨name, t, .declared⟩, scope⟩
  | conditional {c c1 c2 arms arms' otherwise otherwise'} (hne : arms ≠ [])
      (harms : ElabArms c arms arms' c1) (hotherwise : ElabOtherwise c1 otherwise otherwise' c2) :
      ElabStmt c (.conditional arms otherwise) (.conditional arms' otherwise') c2
  | forLoop {c c1 c2 c3 start after start' after' e e' body body'}
      (hstart : ElabPart { c with scope := .forLoop none :: c.scope } start start' c1)
      (he : Elab c1.program c1.scope e e') (hte : typeOf c1.program e' = .ok .bool)
      (hafter : ElabPart c1 after after' c2)
      (hbody : ElabStmts { c2 with scope := .block [] :: c2.scope } body body' c3) :
      ElabStmt c (.forLoop start e after body) (.forLoop start' e' after' body')
        { c3 with scope := c.scope }
  | forEach {c c1 item e e' t itemType kind body body'} (hname : checkMemberName item = .ok ())
      (he : Elab c.program c.scope e e') (ht : typeOf c.program e' = .ok t)
      (hkind : iterableKind c.program t = .ok (kind, itemType))
      (hbody : ElabStmts ⟨c.program.withLocal ⟨item, itemType, .forEachItem⟩,
        .block [] :: .forEach ⟨item, ⟨c.program.locals.size⟩⟩ :: c.scope⟩ body body' c1) :
      ElabStmt c (.forEach item e body) (.forEach ⟨c.program.locals.size⟩ e' kind itemType body')
        { c1 with scope := c.scope }

/-- Each statement of a block becomes the one at its place. -/
inductive ElabStmts : Context → List Syntax.Stmt → List Stmt → Context → Prop where
  | nil {c} : ElabStmts c [] [] c
  | cons {c c1 c2 s s' ss ss'} (hs : ElabStmt c s s' c1) (hss : ElabStmts c1 ss ss' c2) :
      ElabStmts c (s :: ss) (s' :: ss') c2

/-- The first or last part of a loop. -/
inductive ElabPart : Context → Option Syntax.Stmt → Option Stmt → Context → Prop where
  | none {c} : ElabPart c none none c
  | some {c c1 s s'} (hs : ElabStmt c s s' c1) : ElabPart c (some s) (some s') c1

/-- The arms of a conditional. Names that are bound in a block are forgotten after it. -/
inductive ElabArms : Context → List (Syntax.Expr × List Syntax.Stmt) → List (Expr × List Stmt) →
    Context → Prop where
  | nil {c} : ElabArms c [] [] c
  | cons {c c1 c2 e e' block block' arms arms'} (he : Elab c.program c.scope e e')
      (hte : typeOf c.program e' = .ok .bool)
      (hblock : ElabStmts { c with scope := .block [] :: c.scope } block block' c1)
      (harms : ElabArms { c1 with scope := c.scope } arms arms' c2) :
      ElabArms c ((e, block) :: arms) ((e', block') :: arms') c2

inductive ElabOtherwise : Context → Option (List Syntax.Stmt) → Option (List Stmt) → Context →
    Prop where
  | none {c} : ElabOtherwise c none none c
  | some {c c1 block block'}
      (hblock : ElabStmts { c with scope := .block [] :: c.scope } block block' c1) :
      ElabOtherwise c (some block) (some block') { c1 with scope := c.scope }

end

/-! ## What the rules keep -/

/-- A name that is bound leaves the frames outside the innermost one alone. -/
theorem Scope.bind_tail {b : Binding} {scope scope' : Scope} (h : scope.bind b = .ok scope') :
    scope'.tail = scope.tail := by
  cases Scope.extends_of_bind h with
  | block | forLoop => rfl

theorem ElabSimple.binders {p : Program} {scope : Scope} {s : Syntax.Stmt} {s' : Stmt}
    (h : ElabSimple p scope s s') : s'.binders = [] := by
  cases h <;> rfl

mutual

/-- A statement adds the locals that it binds, and keeps the frames outside the innermost one. -/
theorem ElabStmt.adds {c c' s s'} (h : ElabStmt c s s' c') :
    AddsLocals c.program c'.program s'.binders ∧ c'.scope.tail = c.scope.tail := by
  cases h with
  | simple hs =>
    rw [hs.binders]
    exact ⟨.refl _, rfl⟩
  | declare hname he ht hvoid hbind => exact ⟨.single _ _, Scope.bind_tail hbind⟩
  | conditional hne harms hotherwise =>
    obtain ⟨hadds1, hscope1⟩ := harms.adds
    obtain ⟨hadds2, hscope2⟩ := hotherwise.adds
    exact ⟨hadds1.trans hadds2, by rw [hscope2, hscope1]⟩
  | forLoop hstart he hte hafter hbody =>
    exact ⟨hstart.adds.1.trans (hafter.adds.1.trans hbody.adds.1), rfl⟩
  | forEach hname he ht hkind hbody => exact ⟨(AddsLocals.single _ _).trans hbody.adds.1, rfl⟩

theorem ElabStmts.adds {c c' ss ss'} (h : ElabStmts c ss ss' c') :
    AddsLocals c.program c'.program (blockBinders ss') ∧ c'.scope.tail = c.scope.tail := by
  cases h with
  | nil => exact ⟨.refl _, rfl⟩
  | cons hs hss =>
    obtain ⟨hadds1, hscope1⟩ := hs.adds
    obtain ⟨hadds2, hscope2⟩ := hss.adds
    exact ⟨hadds1.trans hadds2, hscope2.trans hscope1⟩

theorem ElabPart.adds {c c' part part'} (h : ElabPart c part part' c') :
    AddsLocals c.program c'.program (partBinders part') ∧ c'.scope.tail = c.scope.tail := by
  cases h with
  | none => exact ⟨.refl _, rfl⟩
  | some hs => exact hs.adds

theorem ElabArms.adds {c c' arms arms'} (h : ElabArms c arms arms' c') :
    AddsLocals c.program c'.program (armBinders arms') ∧ c'.scope = c.scope := by
  cases h with
  | nil => exact ⟨.refl _, rfl⟩
  | cons he hte hblock harms =>
    obtain ⟨hadds, hscope⟩ := harms.adds
    exact ⟨hblock.adds.1.trans hadds, hscope⟩

theorem ElabOtherwise.adds {c c' otherwise otherwise'}
    (h : ElabOtherwise c otherwise otherwise' c') :
    AddsLocals c.program c'.program (otherwiseBinders otherwise') ∧ c'.scope = c.scope := by
  cases h with
  | none => exact ⟨.refl _, rfl⟩
  | some hblock => exact ⟨hblock.adds.1, rfl⟩

end

/-! ## Lowering follows the rules -/

section Simple

variable {c c' : Context} {s' : Stmt}

variable {e a : Syntax.Expr} {e' : Expr}

theorem lowerExpecting_eq_ok {t : Ty} :
    lowerExpecting t e c = .ok e' c' ↔ ElabAt c.program c.scope t e e' ∧ c = c' := by
  unfold lowerExpecting
  by_cases hnull : e.isNull = true
  · obtain rfl := eq_null_of_isNull hnull
    rw [if_pos hnull, nullAt_eq_ok]
    constructor
    · rintro ⟨hvoid, rfl, rfl⟩
      exact ⟨.null hvoid, rfl⟩
    · rintro ⟨h, rfl⟩
      cases h with
      | null hvoid => exact ⟨hvoid, rfl, rfl⟩
      | expr he => cases he
  · rw [if_neg hnull, lowerExpr_eq_ok]
    constructor
    · rintro ⟨he, rfl⟩
      exact ⟨.expr he, rfl⟩
    · rintro ⟨h, rfl⟩
      cases h with
      | null hvoid => exact absurd rfl hnull
      | expr he => exact ⟨he, rfl⟩

/-- Only variables, properties and look-ups become places. -/
theorem lowerPlace_eq_ok :
    lowerPlace e c = .ok e' c' ↔ (Elab c.program c.scope e e' ∧ e'.IsPlace) ∧ c = c' := by
  unfold lowerPlace
  constructor
  · intro h
    split at h
    · simp only [Step.bind_eq_ok, lowerExpr_eq_ok] at h
      obtain ⟨_, _, ⟨he, rfl⟩, h⟩ := h
      cases he with
      | @var _ d t hd ht =>
        cases d with
        | constant id => cases h
        | _ =>
          cases h
          exact ⟨⟨.var hd ht, by rintro _ ⟨⟩⟩, rfl⟩
    · obtain ⟨he, rfl⟩ := (lowerExpr_eq_ok _).mp h
      cases he with
      | property hr ht hfield => exact ⟨⟨.property hr ht hfield, trivial⟩, rfl⟩
    · simp only [Step.bind_eq_ok, lowerExpr_eq_ok] at h
      obtain ⟨_, _, ⟨he, rfl⟩, h⟩ := h
      cases he with
      | @lookup _ _ _ _ _ _ _ kind ha hk hta htk hlookup =>
        cases kind with
        | string => cases h
        | _ =>
          cases h
          exact ⟨⟨.lookup ha hk hta htk hlookup, by rintro ⟨⟩⟩, rfl⟩
    · cases h
  · rintro ⟨⟨he, hplace⟩, rfl⟩
    cases he with
    | @var name d t hd ht =>
      have he := (lowerExpr_eq_ok (.var name)).mpr ⟨Elab.var hd ht, rfl⟩
      refine Step.bind_eq_ok.mpr ⟨_, c, he, ?_⟩
      cases d with
      | constant id => exact absurd rfl (hplace id)
      | _ => rfl
    | @property r _ _ _ name _ hr ht hfield =>
      exact (lowerExpr_eq_ok (.property r name)).mpr ⟨.property hr ht hfield, rfl⟩
    | @lookup a k _ _ _ _ _ kind ha hk hta htk hlookup =>
      have he := (lowerExpr_eq_ok (.lookup a k)).mpr ⟨Elab.lookup ha hk hta htk hlookup, rfl⟩
      refine Step.bind_eq_ok.mpr ⟨_, c, he, ?_⟩
      cases kind with
      | string => exact absurd rfl hplace
      | _ => rfl
    | _ => cases hplace

theorem lowerCondition_eq_ok :
    lowerCondition e c = .ok e' c' ↔
      (Elab c.program c.scope e e' ∧ typeOf c.program e' = .ok .bool) ∧ c = c' := by
  simp only [lowerCondition, Step.bind_eq_ok, Step.kept, lowerExpr_eq_ok, Lower.check_eq_ok,
    checkCondition_eq_ok, Step.pure_eq_ok]
  constructor
  · rintro ⟨e', he, _, hbool, rfl, rfl⟩
    exact ⟨⟨he, hbool⟩, rfl⟩
  · rintro ⟨⟨he, hbool⟩, rfl⟩
    exact ⟨e', he, (), hbool, rfl, rfl⟩

theorem lowerAssign_eq_ok {place : Syntax.Expr} :
    lowerAssign place e c = .ok s' c' ↔
      ElabSimple c.program c.scope (.assign place e) s' ∧ c = c' := by
  simp only [lowerAssign, Step.bind_eq_ok, Step.kept, lowerPlace_eq_ok, typed_eq_ok,
    lowerExpecting_eq_ok, expectType_eq_ok, Step.pure_eq_ok]
  constructor
  · rintro ⟨place', ⟨hplace, his⟩, t, ht, e', he, _, _, ⟨hte, rfl, rfl⟩, rfl, rfl⟩
    exact ⟨.assign hplace his ht he hte, rfl⟩
  · rintro ⟨h, rfl⟩
    cases h with
    | assign hplace his ht he hte =>
      exact ⟨_, ⟨hplace, his⟩, _, ht, _, he, _, _, ⟨hte, rfl, rfl⟩, rfl, rfl⟩

theorem lowerReturn_eq_ok {value : Option Syntax.Expr} :
    lowerReturn value c = .ok s' c' ↔ ElabSimple c.program c.scope (.ret value) s' ∧ c = c' := by
  cases value with
  | none =>
    simp only [lowerReturn, Step.bind_eq_ok, Step.kept, Lower.inspect_eq_ok,
      enclosingCallable_eq_ok, Lower.check_eq_ok, Checked.ofOption_eq_ok, checkReturn_eq_ok,
      Step.pure_eq_ok]
    constructor
    · rintro ⟨callable, hcallable, t, ht, _, rfl, _, hret, rfl, rfl⟩
      cases hret
      exact ⟨.retNone hcallable ht, rfl⟩
    · rintro ⟨h, rfl⟩
      cases h with
      | retNone hcallable ht => exact ⟨_, hcallable, _, ht, none, rfl, (), rfl, rfl, rfl⟩
  | some e =>
    simp only [lowerReturn, Step.bind_eq_ok, Step.kept, Lower.inspect_eq_ok,
      enclosingCallable_eq_ok, Lower.check_eq_ok, Checked.ofOption_eq_ok, checkReturn_eq_ok,
      Step.map_eq_ok, lowerExpecting_eq_ok, Step.pure_eq_ok]
    constructor
    · rintro ⟨callable, hcallable, t, ht, _, _, ⟨e', ⟨he, rfl⟩, rfl⟩, _, hret, rfl, rfl⟩
      exact ⟨.retSome hcallable ht he hret, rfl⟩
    · rintro ⟨h, rfl⟩
      cases h with
      | @retSome _ _ e' _ hcallable ht he hte =>
        exact ⟨_, hcallable, _, ht, some e', c, ⟨e', ⟨he, rfl⟩, rfl⟩, (), hte, rfl, rfl⟩

theorem lowerControl_eq_ok {s : Stmt} :
    lowerControl s c = .ok s' c' ↔ (s = s' ∧ c.scope.inLoop = true) ∧ c = c' := by
  simp only [lowerControl, Step.bind_eq_ok, Step.kept, Step.get_eq_ok, exists_eq_left']
  by_cases hloop : c.scope.inLoop = true
  · rw [if_pos hloop, Step.pure_eq_ok, and_iff_left hloop]
  · rw [if_neg hloop]
    exact ⟨by rintro ⟨⟩, fun h => (hloop h.1.2).elim⟩

theorem lowerAdd_eq_ok :
    lowerAdd a e c = .ok s' c' ↔ ElabSimple c.program c.scope (.add a e) s' ∧ c = c' := by
  simp only [lowerAdd, Step.bind_eq_ok, Step.kept, lowerExpr_eq_ok, typed_eq_ok,
    Lower.check_eq_ok, setItem_eq_ok, expectType_eq_ok, Step.pure_eq_ok]
  constructor
  · rintro ⟨a', ha, _, hta, item, rfl, e', he, _, _, ⟨hte, rfl, rfl⟩, rfl, rfl⟩
    exact ⟨.add ha hta he hte, rfl⟩
  · rintro ⟨h, rfl⟩
    cases h with
    | add ha hta he hte => exact ⟨_, ha, _, hta, _, rfl, _, he, _, _, ⟨hte, rfl, rfl⟩, rfl, rfl⟩

theorem lowerPush_eq_ok :
    lowerPush a e c = .ok s' c' ↔ ElabSimple c.program c.scope (.push a e) s' ∧ c = c' := by
  simp only [lowerPush, Step.bind_eq_ok, Step.kept, lowerExpr_eq_ok, typed_eq_ok,
    Lower.check_eq_ok, listItem_eq_ok, expectType_eq_ok, Step.pure_eq_ok]
  constructor
  · rintro ⟨a', ha, _, hta, item, rfl, e', he, _, _, ⟨hte, rfl, rfl⟩, rfl, rfl⟩
    exact ⟨.push ha hta he hte, rfl⟩
  · rintro ⟨h, rfl⟩
    cases h with
    | push ha hta he hte => exact ⟨_, ha, _, hta, _, rfl, _, he, _, _, ⟨hte, rfl, rfl⟩, rfl, rfl⟩

theorem lowerPop_eq_ok :
    lowerPop a c = .ok s' c' ↔ ElabSimple c.program c.scope (.pop a) s' ∧ c = c' := by
  simp only [lowerPop, Step.bind_eq_ok, Step.kept, lowerExpr_eq_ok, typed_eq_ok,
    Lower.check_eq_ok, listItem_eq_ok, Step.pure_eq_ok]
  constructor
  · rintro ⟨a', ha, _, hta, item, rfl, rfl, rfl⟩
    exact ⟨.pop ha hta, rfl⟩
  · rintro ⟨h, rfl⟩
    cases h with
    | pop ha hta => exact ⟨_, ha, _, hta, _, rfl, rfl, rfl⟩

theorem lowerCallStmt_eq_ok {target : Syntax.Target} {es : List Syntax.Expr} :
    lowerCallStmt target es c = .ok s' c' ↔
      ElabSimple c.program c.scope (.call target es) s' ∧ c = c' := by
  cases target with
  | function name =>
    simp only [lowerCallStmt, Step.bind_eq_ok, Step.kept, Lower.inspect_eq_ok,
      lowerCall_iff (lowerArguments_eq_ok es), Step.pure_eq_ok]
    constructor
    · rintro ⟨_, hresolve, _, _, ⟨f, es', hf, hes, htypes, rfl, rfl⟩, rfl, rfl⟩
      exact ⟨.callFunction hresolve hf hes htypes, rfl⟩
    · rintro ⟨h, rfl⟩
      cases h with
      | callFunction hresolve hf hes htypes =>
        exact ⟨_, hresolve, _, _, ⟨_, _, hf, hes, htypes, rfl, rfl⟩, rfl, rfl⟩
  | method r name =>
    simp only [lowerCallStmt, Step.bind_eq_ok, Step.kept, typed_eq_ok, lowerExpr_eq_ok]
    constructor
    · rintro ⟨r', hr, t, ht, h⟩
      split at h
      · simp only [Step.bind_eq_ok, lowerOnly_eq_ok, Step.pure_eq_ok] at h
        obtain ⟨e', _, ⟨e, rfl, he, hte, rfl⟩, rfl, rfl⟩ := h
        exact ⟨.callAdd hr ht he hte, rfl⟩
      · simp only [Step.bind_eq_ok, lowerOnly_eq_ok, Step.pure_eq_ok] at h
        obtain ⟨e', _, ⟨e, rfl, he, hte, rfl⟩, rfl, rfl⟩ := h
        exact ⟨.callPush hr ht he hte, rfl⟩
      · simp only [Step.bind_eq_ok, Step.kept, requireArity_eq_ok, Step.pure_eq_ok] at h
        obtain ⟨_, harity, rfl, rfl⟩ := h
        obtain rfl := List.length_eq_zero_iff.mp harity.symm
        exact ⟨.callPop hr ht, rfl⟩
      · simp only [Step.bind_eq_ok, Step.kept, Lower.check_eq_ok,
          lowerCall_iff (lowerArguments_eq_ok es), Step.pure_eq_ok] at h
        obtain ⟨_, hresolve, _, _, ⟨f, es', hf, hes, htypes, rfl, rfl⟩, rfl, rfl⟩ := h
        exact ⟨.callMethod hr ht hresolve hf hes htypes, rfl⟩
    · rintro ⟨h, rfl⟩
      cases h with
      | @callAdd _ e _ e' _ hr ht he hte | @callPush _ e _ e' _ hr ht he hte =>
        refine ⟨_, hr, _, ht, ?_⟩
        simp only [Step.bind_eq_ok, lowerOnly_eq_ok, Step.pure_eq_ok]
        exact ⟨e', c, ⟨e, rfl, he, hte, rfl⟩, rfl, rfl⟩
      | callPop hr ht => exact ⟨_, hr, _, ht, rfl⟩
      | callMethod hr ht hresolve hf hes htypes =>
        -- a method belongs to a model, so this is none of the built-in operations
        obtain ⟨id, m, rfl, _, _⟩ := resolveMethod_eq_ok.mp hresolve
        refine ⟨_, hr, _, ht, ?_⟩
        simp only [Step.bind_eq_ok, Step.kept, Lower.check_eq_ok,
          lowerCall_iff (lowerArguments_eq_ok es), Step.pure_eq_ok]
        exact ⟨_, hresolve, _, _, ⟨_, _, hf, hes, htypes, rfl, rfl⟩, rfl, rfl⟩

theorem lowerDeclare_eq_ok {name : String} :
    lowerDeclare name e c = .ok s' c' ↔ ElabStmt c (.declare name e) s' c' := by
  simp only [lowerDeclare, Step.bind_eq_ok, Step.kept, Lower.check_eq_ok, lowerExpr_eq_ok,
    typed_eq_ok, Step.unless_eq_ok, Ty.isVoid_iff, newLocal_eq_ok, Lower.bind_eq_ok,
    Step.pure_eq_ok]
  constructor
  · rintro ⟨_, hname, e', he, t, ht, hvoid, id, rfl, _, _, ⟨scope, hbind, rfl⟩, rfl, rfl⟩
    exact .declare hname he ht hvoid hbind
  · intro h
    cases h with
    | simple hs => cases hs
    | declare hname he ht hvoid hbind =>
      exact ⟨(), hname, _, he, _, ht, hvoid, _, rfl, (), _, ⟨_, hbind, rfl⟩, rfl, rfl⟩

end Simple

/-- A rule for simple statements is the only one for a statement of that kind. -/
theorem elabStmt_simple {c c' : Context} {s : Syntax.Stmt} {s' : Stmt}
    (hs : ElabStmt c s s' c' → ElabSimple c.program c.scope s s' ∧ c = c' := by
      rintro ⟨hs⟩; exact ⟨hs, rfl⟩) :
    ElabSimple c.program c.scope s s' ∧ c = c' ↔ ElabStmt c s s' c' := by
  refine ⟨?_, hs⟩
  rintro ⟨h, rfl⟩
  exact .simple h

/-- After a loop its own frame is taken off, and that of its block. -/
theorem forLoop_scope {c c1 c2 c3 : Context} {start after start' after' body body'}
    (hstart : ElabPart { c with scope := .forLoop none :: c.scope } start start' c1)
    (hafter : ElabPart c1 after after' c2)
    (hbody : ElabStmts { c2 with scope := .block [] :: c2.scope } body body' c3) :
    c3.scope.tail.tail = c.scope := by
  rw [hbody.adds.2]
  exact hafter.adds.2.trans hstart.adds.2

mutual

/-- Lowering a statement succeeds exactly by the rules. -/
theorem lowerStmt_eq_ok : ∀ s {s' c c'},
    lowerStmt s c = .ok s' c' ↔ ElabStmt c s s' c'
  | .declare name e, s', c, c' => by
    unfold lowerStmt
    exact lowerDeclare_eq_ok
  | .assign place e, s', c, c' => by
    unfold lowerStmt
    exact lowerAssign_eq_ok.trans elabStmt_simple
  | .conditional arms otherwise, s', c, c' => by
    simp only [lowerStmt, Step.unless_eq_ok, List.isEmpty_iff, Step.bind_eq_ok,
      lowerArms_eq_ok arms, lowerOtherwise_eq_ok otherwise, Step.pure_eq_ok]
    constructor
    · rintro ⟨hne, arms', c1, harms, otherwise', c2, hotherwise, rfl, rfl⟩
      exact .conditional hne harms hotherwise
    · intro h
      cases h with
      | simple hs => cases hs
      | conditional hne harms hotherwise => exact ⟨hne, _, _, harms, _, _, hotherwise, rfl, rfl⟩
  | .forLoop start e after body, s', c, c' => by
    simp only [lowerStmt, Lower.withFrame_eq_ok, Step.bind_eq_ok, Step.kept, lowerPart_eq_ok start,
      lowerPart_eq_ok after, lowerCondition_eq_ok, lowerStmts_eq_ok body, Step.pure_eq_ok]
    constructor
    · rintro ⟨_, ⟨start', c1, hstart, e', ⟨he, hte⟩, after', c2, hafter, body', _,
        ⟨c3, hbody, rfl⟩, rfl, rfl⟩, rfl⟩
      have h := ElabStmt.forLoop hstart he hte hafter hbody
      rw [← forLoop_scope hstart hafter hbody] at h
      exact h
    · intro h
      cases h with
      | simple hs => cases hs
      | forLoop hstart he hte hafter hbody =>
        refine ⟨_, ⟨_, _, hstart, _, ⟨he, hte⟩, _, _, hafter, _, _, ⟨_, hbody, rfl⟩, rfl, rfl⟩, ?_⟩
        rw [forLoop_scope hstart hafter hbody]
  | .forEach item e body, s', c, c' => by
    simp only [lowerStmt, Step.bind_eq_ok, Step.kept, Lower.check_eq_ok, lowerExpr_eq_ok,
      typed_eq_ok, newLocal_eq_ok, Lower.withFrame_eq_ok, lowerStmts_eq_ok body, Step.pure_eq_ok]
    constructor
    · rintro ⟨_, hname, e', he, t, ht, ⟨kind, itemType⟩, hkind, id, rfl, body', _,
        ⟨_, ⟨c1, hbody, rfl⟩, rfl⟩, rfl, rfl⟩
      have h := ElabStmt.forEach hname he ht hkind hbody
      have hscope : c1.scope.tail.tail = c.scope := by rw [hbody.adds.2]; rfl
      rw [← hscope] at h
      exact h
    · intro h
      cases h with
      | simple hs => cases hs
      | @forEach _ c1 _ _ _ _ _ _ _ _ hname he ht hkind hbody =>
        have hscope : c1.scope.tail.tail = c.scope := by rw [hbody.adds.2]; rfl
        refine ⟨(), hname, _, he, _, ht, _, hkind, _, rfl, _, _,
          ⟨_, ⟨_, hbody, rfl⟩, rfl⟩, rfl, ?_⟩
        rw [hscope]
  | .ret value, s', c, c' => by
    unfold lowerStmt
    exact lowerReturn_eq_ok.trans elabStmt_simple
  | .brk, s', c, c' => by
    unfold lowerStmt
    rw [lowerControl_eq_ok, ← elabStmt_simple]
    constructor
    · rintro ⟨⟨rfl, hloop⟩, rfl⟩
      exact ⟨.brk hloop, rfl⟩
    · rintro ⟨_ | _, rfl⟩
      exact ⟨⟨rfl, ‹_›⟩, rfl⟩
  | .cont, s', c, c' => by
    unfold lowerStmt
    rw [lowerControl_eq_ok, ← elabStmt_simple]
    constructor
    · rintro ⟨⟨rfl, hloop⟩, rfl⟩
      exact ⟨.cont hloop, rfl⟩
    · rintro ⟨_ | _, rfl⟩
      exact ⟨⟨rfl, ‹_›⟩, rfl⟩
  | .add a e, s', c, c' => by
    unfold lowerStmt
    exact lowerAdd_eq_ok.trans elabStmt_simple
  | .push a e, s', c, c' => by
    unfold lowerStmt
    exact lowerPush_eq_ok.trans elabStmt_simple
  | .pop a, s', c, c' => by
    unfold lowerStmt
    exact lowerPop_eq_ok.trans elabStmt_simple
  | .call target es, s', c, c' => by
    unfold lowerStmt
    exact lowerCallStmt_eq_ok.trans elabStmt_simple

theorem lowerStmts_eq_ok : ∀ ss {ss' c c'},
    lowerStmts ss c = .ok ss' c' ↔ ElabStmts c ss ss' c'
  | [], ss', c, c' => by
    simp only [lowerStmts, Step.pure_eq_ok]
    constructor
    · rintro ⟨rfl, rfl⟩
      exact .nil
    · rintro ⟨⟩
      exact ⟨rfl, rfl⟩
  | s :: ss, ss', c, c' => by
    simp only [lowerStmts, Step.bind_eq_ok, lowerStmt_eq_ok s, lowerStmts_eq_ok ss, Step.pure_eq_ok]
    constructor
    · rintro ⟨s', c1, hs, ss', c2, hss, rfl, rfl⟩
      exact .cons hs hss
    · intro h
      cases h with
      | cons hs hss => exact ⟨_, _, hs, _, _, hss, rfl, rfl⟩

theorem lowerPart_eq_ok : ∀ part {part' c c'},
    lowerPart part c = .ok part' c' ↔ ElabPart c part part' c'
  | none, part', c, c' => by
    simp only [lowerPart, Step.pure_eq_ok]
    constructor
    · rintro ⟨rfl, rfl⟩
      exact .none
    · rintro ⟨⟩
      exact ⟨rfl, rfl⟩
  | some s, part', c, c' => by
    simp only [lowerPart, Step.map_eq_ok, lowerStmt_eq_ok s]
    constructor
    · rintro ⟨s', hs, rfl⟩
      exact .some hs
    · intro h
      cases h with
      | some hs => exact ⟨_, hs, rfl⟩

theorem lowerArms_eq_ok : ∀ (arms : List (Syntax.Expr × List Syntax.Stmt))
    {arms' : List (Expr × List Stmt)} {c c' : Context},
    lowerArms arms c = .ok arms' c' ↔ ElabArms c arms arms' c'
  | [], arms', c, c' => by
    simp only [lowerArms, Step.pure_eq_ok]
    constructor
    · rintro ⟨rfl, rfl⟩
      exact .nil
    · rintro ⟨⟩
      exact ⟨rfl, rfl⟩
  | (e, block) :: arms, arms', c, c' => by
    simp only [lowerArms, Step.bind_eq_ok, lowerCondition_eq_ok, Lower.withFrame_eq_ok,
      lowerStmts_eq_ok block, lowerArms_eq_ok arms, Step.pure_eq_ok]
    constructor
    · rintro ⟨e', _, ⟨⟨he, hte⟩, rfl⟩, block', _, ⟨c1, hblock, rfl⟩, arms', c2, harms, rfl, rfl⟩
      rw [hblock.adds.2] at harms
      exact .cons he hte hblock harms
    · intro h
      cases h with
      | @cons _ c1 _ _ _ _ _ _ _ he hte hblock harms =>
        refine ⟨_, c, ⟨⟨he, hte⟩, rfl⟩, _, _, ⟨c1, hblock, rfl⟩, _, _, ?_, rfl, rfl⟩
        rw [hblock.adds.2]
        exact harms

theorem lowerOtherwise_eq_ok : ∀ (otherwise : Option (List Syntax.Stmt))
    {otherwise' : Option (List Stmt)} {c c' : Context},
    lowerOtherwise otherwise c = .ok otherwise' c' ↔ ElabOtherwise c otherwise otherwise' c'
  | none, otherwise', c, c' => by
    simp only [lowerOtherwise, Step.pure_eq_ok]
    constructor
    · rintro ⟨rfl, rfl⟩
      exact .none
    · rintro ⟨⟩
      exact ⟨rfl, rfl⟩
  | some block, otherwise', c, c' => by
    simp only [lowerOtherwise, Step.map_eq_ok, Lower.withFrame_eq_ok, lowerStmts_eq_ok block]
    constructor
    · rintro ⟨block', ⟨c1, hblock, rfl⟩, rfl⟩
      rw [hblock.adds.2]
      exact .some hblock
    · intro h
      cases h with
      | some hblock =>
        refine ⟨_, ⟨_, hblock, ?_⟩, rfl⟩
        rw [hblock.adds.2]
        rfl

end

end Scribe.Lowering
