import Scribe.Proofs.LowerStmt

/-!
# The rules of lowering

`Elab p scope e e'` is the rule book of lowering for expressions: what an expression becomes in a
program and a scope, written down without a state and without errors. There is one rule for each
form of expression, one more for each built-in operation that is spelled as a call, and two for
comparisons with `null`. Lowering an expression succeeds exactly by these rules and changes nothing
(`lowerExpr_eq_ok`). Properties of lowered expressions are proved by going over the rules.
-/

namespace Scribe.Lowering

open Scribe.Core

/-! ## Rules for expressions -/

section Rules

variable (p : Program) (scope : Scope)

mutual

/-- `e` becomes `e'`. -/
inductive Elab : Syntax.Expr → Expr → Prop where
  | bool (value : Bool) : Elab (.bool value) (.bool value)
  | int (value : Int64) : Elab (.int value) (.int value)
  | rune (value : Char) : Elab (.rune value) (.rune value)
  | string (value : String) : Elab (.string value) (.string value)
  | list {es es' item} (hes : Elabs es es')
      (hitem : sharedType p .list (typesOf p es') = .ok item) : Elab (.list es) (.list es' item)
  | set {es es' item} (hes : Elabs es es') (hitem : sharedType p .set (typesOf p es') = .ok item) :
      Elab (.set es) (.set es' item)
  | map {entries entries' key value} (hentries : ElabEntries entries entries')
      (hkey : sharedType p .mapKey (keyTypes p entries') = .ok key)
      (hvalue : sharedType p .mapValue (valueTypes p entries') = .ok value) :
      Elab (.map entries) (.map entries' key value)
  | emptyList {t item} (hitem : lowerValueType p t = .ok item) :
      Elab (.emptyList t) (.emptyList item)
  | emptySet {t item} (hitem : lowerValueType p t = .ok item) : Elab (.emptySet t) (.emptySet item)
  | emptyMap {tk tv key value} (hkey : lowerValueType p tk = .ok key)
      (hvalue : lowerValueType p tv = .ok value) : Elab (.emptyMap tk tv) (.emptyMap key value)
  | callFunction {name es es' receiver function f}
      (hresolve : resolveFunction p scope name = .ok (receiver, function))
      (hf : p.getFunction? function = some f) (hes : Elabs es es')
      (htypes : es'.map (typeOf p) = f.parameters.map fun q => .ok q.type) :
      Elab (.call (.function name) es) (.call receiver es' function f.returnType)
  | callMethod {r r' t name es es' function f} (hr : Elab r r') (ht : typeOf p r' = .ok t)
      (hresolve : resolveMethod p t name = .ok function) (hf : p.getFunction? function = some f)
      (hes : Elabs es es') (htypes : es'.map (typeOf p) = f.parameters.map fun q => .ok q.type) :
      Elab (.call (.method r name) es) (.call (some r') es' function f.returnType)
  | callContains {r e r' e' item} (hr : Elab r r') (ht : typeOf p r' = .ok (.set item))
      (he : Elab e e') (hte : typeOf p e' = .ok item) :
      Elab (.call (.method r "contains") [e]) (.contains r' e')
  | callPop {r r' item} (hr : Elab r r') (ht : typeOf p r' = .ok (.list item)) :
      Elab (.call (.method r "pop") []) (.pop r' item)
  | lookup {a k a' k' ta tk output kind} (ha : Elab a a') (hk : Elab k k')
      (hta : typeOf p a' = .ok ta) (htk : typeOf p k' = .ok tk)
      (hlookup : lookupType p ta tk = .ok (kind, output)) :
      Elab (.lookup a k) (.lookup a' k' kind output)
  | property {r r' t output name field} (hr : Elab r r') (ht : typeOf p r' = .ok t)
      (hfield : resolveField p t name = .ok (field, output)) :
      Elab (.property r name) (.property r' field output)
  | contains {a e a' e' item} (ha : Elab a a') (hta : typeOf p a' = .ok (.set item))
      (he : Elab e e') (hte : typeOf p e' = .ok item) : Elab (.contains a e) (.contains a' e')
  | new {name id} (hid : p.model? name = some id) : Elab (.new name) (.new id)
  | length {e e' t kind} (he : Elab e e') (ht : typeOf p e' = .ok t)
      (hkind : lengthKind p t = .ok kind) : Elab (.length e) (.length e' kind)
  | unary {op e e' t output} (he : Elab e e') (ht : typeOf p e' = .ok t)
      (houtput : unaryOutput p op t = .ok output) : Elab (.unary op e) (.unary op e' output)
  | binary {op l r l' r' tl tr output} (hl : Elab l l') (hr : Elab r r')
      (htl : typeOf p l' = .ok tl) (htr : typeOf p r' = .ok tr)
      (houtput : binaryOutput p op tl tr = .ok output) :
      Elab (.binary op l r) (.binary op l' r' output)
  | nullLeft {op e e' t} (hop : op.isEquality = true) (he : Elab e e')
      (ht : typeOf p e' = .ok t) (hvoid : t ≠ .void) :
      Elab (.binary op .null e) (.binary op (.null t) e' .bool)
  | nullRight {op e e' t} (hop : op.isEquality = true) (he : Elab e e')
      (ht : typeOf p e' = .ok t) (hvoid : t ≠ .void) :
      Elab (.binary op e .null) (.binary op e' (.null t) .bool)
  | var {name d t} (hd : scope.resolve p name = .ok d) (ht : p.definitionType? d = some t) :
      Elab (.var name) (.var d t)
  | self {id} (hid : scope.enclosingModel? = some id) : Elab .self (.self id)
  | pop {a a' item} (ha : Elab a a') (hta : typeOf p a' = .ok (.list item)) :
      Elab (.pop a) (.pop a' item)

/-- Each of some expressions becomes the one at its place. -/
inductive Elabs : List Syntax.Expr → List Expr → Prop where
  | nil : Elabs [] []
  | cons {e e' es es'} (he : Elab e e') (hes : Elabs es es') : Elabs (e :: es) (e' :: es')

/-- Each of some entries becomes the one at its place. -/
inductive ElabEntries : List (Syntax.Expr × Syntax.Expr) → List (Expr × Expr) → Prop where
  | nil : ElabEntries [] []
  | cons {k v k' v' entries entries'} (hk : Elab k k') (hv : Elab v v')
      (hentries : ElabEntries entries entries') :
      ElabEntries ((k, v) :: entries) ((k', v') :: entries')

end

end Rules

section Facts

variable {p : Program} {scope : Scope} {e : Syntax.Expr} {e' : Expr}

/-- `null` becomes nothing on its own. -/
theorem Elab.isNull (h : Elab p scope e e') : e.isNull = false := by
  cases h <;> rfl

/-- An expression that is lowered on its own is not `null`, which has no type of its own. -/
theorem Elab.not_null (h : Elab p scope e e') : e'.isNull = false := by
  cases h <;> rfl

variable {es : List Syntax.Expr} {es' : List Expr}

theorem Elabs.length_eq (h : Elabs p scope es es') : es.length = es'.length := by
  induction es generalizing es' with
  | nil =>
    cases h
    rfl
  | cons e es ih =>
    cases h with
    | cons _ hes => rw [List.length_cons, List.length_cons, ih hes]

/-- A call has as many arguments as its function has parameters. -/
theorem Elabs.arity {f : Function} (h : Elabs p scope es es')
    (htypes : es'.map (typeOf p) = f.parameters.map fun q => .ok q.type) :
    f.parameters.length = es.length := by
  have hlength := congrArg List.length htypes
  rw [List.length_map, List.length_map] at hlength
  rw [h.length_eq, hlength]

end Facts

/-! ## Lowering follows the rules -/

theorem eq_null_of_isNull {e : Syntax.Expr} (h : e.isNull = true) : e = .null := by
  cases e with
  | null => rfl
  | _ => cases h

variable {c c' : Context}

/-- An argument list that fits the parameters, in the form that calls have it. -/
theorem map_typeOf_parameters {p : Program} {f : Function} {es : List Expr} :
    es.map (typeOf p) = (f.parameters.map (·.type)).map .ok ↔
      es.map (typeOf p) = f.parameters.map fun q => .ok q.type := by
  rw [List.map_map]
  rfl

/-- A call becomes one exactly if its arguments fit the parameters, given what lowering them does. -/
theorem lowerCall_iff {receiver : Option Expr} {function : FunctionId} {es : List Syntax.Expr}
    {call : Call} (hes : ∀ {types es' c c'},
      types.length = es.length → (lowerArguments types es c = .ok es' c' ↔
        Elabs c.program c.scope es es' ∧ es'.map (typeOf c.program) = types.map .ok ∧ c = c')) :
    lowerCall receiver function es.length (lowerArguments · es) c = .ok call c' ↔
      ∃ f es', c.program.getFunction? function = some f ∧ Elabs c.program c.scope es es' ∧
        es'.map (typeOf c.program) = (f.parameters.map fun q => .ok q.type) ∧
        ⟨receiver, es', function, f.returnType⟩ = call ∧ c = c' := by
  rw [lowerCall_eq_ok]
  constructor
  · rintro ⟨f, es', hf, hcount, harguments, rfl⟩
    obtain ⟨hes', htypes, rfl⟩ := (hes (by simpa using hcount)).mp harguments
    exact ⟨f, es', hf, hes', map_typeOf_parameters.mp htypes, rfl, rfl⟩
  · rintro ⟨f, es', hf, hes', htypes, rfl, rfl⟩
    have hcount := hes'.arity htypes
    exact ⟨f, es', hf, hcount, (hes (by simpa using hcount)).mpr
      ⟨hes', map_typeOf_parameters.mpr htypes, rfl⟩, rfl⟩

section ByRules

/-- Lowering an expression succeeds exactly by the rules, and changes nothing. -/
abbrev ByRules (e : Syntax.Expr) : Prop :=
  ∀ {e' c c'}, lowerExpr e c = .ok e' c' ↔ Elab c.program c.scope e e' ∧ c = c'

variable {l r : Syntax.Expr} {e' : Expr} {op : BinaryOp}

/-- A method call is one of the two built-in operations or calls a method of a model. -/
theorem ByRules.method {name : String} {es : List Syntax.Expr} (hr : ByRules r)
    (hes : ∀ {types es' c c'}, types.length = es.length →
      (lowerArguments types es c = .ok es' c' ↔
        Elabs c.program c.scope es es' ∧ es'.map (typeOf c.program) = types.map .ok ∧ c = c'))
    (honly : ∀ {name item e' c c'}, lowerOnly name item es c = .ok e' c' ↔
      ∃ e, es = [e] ∧ Elab c.program c.scope e e' ∧ typeOf c.program e' = .ok item ∧ c = c') :
    ByRules (.call (.method r name) es) := by
  intro e' c c'
  simp only [lowerExpr, Step.bind_eq_ok, Step.kept, typed_eq_ok, hr]
  constructor
  · rintro ⟨r', hr, t, ht, h⟩
    split at h
    · simp only [Step.bind_eq_ok, honly, Step.pure_eq_ok] at h
      obtain ⟨e', _, ⟨e, rfl, he, hte, rfl⟩, rfl, rfl⟩ := h
      exact ⟨.callContains hr ht he hte, rfl⟩
    · simp only [Step.bind_eq_ok, Step.kept, requireArity_eq_ok, Step.pure_eq_ok] at h
      obtain ⟨_, harity, rfl, rfl⟩ := h
      obtain rfl := List.length_eq_zero_iff.mp harity.symm
      exact ⟨.callPop hr ht, rfl⟩
    · simp only [Step.bind_eq_ok, Step.kept, Lower.check_eq_ok, lowerCall_iff hes,
        Step.pure_eq_ok] at h
      obtain ⟨_, hresolve, _, _, ⟨f, es', hf, hes', htypes, rfl, rfl⟩, rfl, rfl⟩ := h
      exact ⟨.callMethod hr ht hresolve hf hes' htypes, rfl⟩
  · rintro ⟨h, rfl⟩
    cases h with
    | callContains hr ht he hte =>
      refine ⟨_, hr, _, ht, ?_⟩
      simp only [Step.bind_eq_ok, honly, Step.pure_eq_ok]
      exact ⟨_, c, ⟨_, rfl, he, hte, rfl⟩, rfl, rfl⟩
    | callPop hr ht => exact ⟨_, hr, _, ht, rfl⟩
    | callMethod hr ht hresolve hf hes' htypes =>
      -- a method belongs to a model, so this is none of the built-in operations
      obtain ⟨id, m, rfl, _, _⟩ := resolveMethod_eq_ok.mp hresolve
      refine ⟨_, hr, _, ht, ?_⟩
      simp only [Step.bind_eq_ok, Step.kept, Lower.check_eq_ok, lowerCall_iff hes, Step.pure_eq_ok]
      exact ⟨_, hresolve, _, c, ⟨_, _, hf, hes', htypes, rfl, rfl⟩, rfl, rfl⟩

/-- A `null` takes the type of the expression that it is compared with. -/
theorem ByRules.null {node : Expr → Expr → Expr} (hr : ByRules r) :
    (do
      let right ← lowerExpr r
      let left ← nullAt (← typed right)
      return node left right : Lower Expr) c = .ok e' c' ↔
      ∃ r' t, Elab c.program c.scope r r' ∧ typeOf c.program r' = .ok t ∧ t ≠ .void ∧
        node (.null t) r' = e' ∧ c = c' := by
  simp only [Step.bind_eq_ok, Step.kept, typed_eq_ok, nullAt_eq_ok, hr, Step.pure_eq_ok]
  constructor
  · rintro ⟨r', hr, t, ht, _, _, ⟨hvoid, rfl, rfl⟩, rfl, rfl⟩
    exact ⟨r', t, hr, ht, hvoid, rfl, rfl⟩
  · rintro ⟨r', t, hr, ht, hvoid, rfl, rfl⟩
    exact ⟨r', hr, t, ht, _, c, ⟨hvoid, rfl, rfl⟩, rfl, rfl⟩

theorem ByRules.binary (hl : ByRules l) (hr : ByRules r) : ByRules (.binary op l r) := by
  intro e' c c'
  unfold lowerExpr
  constructor
  · intro h
    split at h
    · cases h
    split at h
    · next hnull =>
      obtain ⟨hop, hnull⟩ := Bool.and_eq_true_iff.mp hnull
      obtain rfl := eq_null_of_isNull hnull
      obtain ⟨r', t, hr, ht, hvoid, rfl, rfl⟩ := hr.null.mp h
      exact ⟨.nullLeft hop hr ht hvoid, rfl⟩
    split at h
    · next hnull =>
      obtain ⟨hop, hnull⟩ := Bool.and_eq_true_iff.mp hnull
      obtain rfl := eq_null_of_isNull hnull
      obtain ⟨l', t, hl, ht, hvoid, rfl, rfl⟩ := hl.null.mp h
      exact ⟨.nullRight hop hl ht hvoid, rfl⟩
    simp only [Step.bind_eq_ok, Step.kept, typed_eq_ok, Lower.check_eq_ok, hl, hr,
      Step.pure_eq_ok] at h
    obtain ⟨l', hl, r', hr, tl, htl, tr, htr, output, houtput, rfl, rfl⟩ := h
    exact ⟨.binary hl hr htl htr houtput, rfl⟩
  · rintro ⟨h, rfl⟩
    cases h with
    | nullLeft hop he ht hvoid =>
      rw [if_neg (by simp [he.isNull]), if_pos (by rw [hop]; rfl)]
      exact hr.null.mpr ⟨_, _, he, ht, hvoid, rfl, rfl⟩
    | nullRight hop he ht hvoid =>
      rw [if_neg (by simp [he.isNull]), if_neg (by simp [he.isNull]), if_pos (by rw [hop]; rfl)]
      exact hl.null.mpr ⟨_, _, he, ht, hvoid, rfl, rfl⟩
    | binary hl' hr' htl htr houtput =>
      rw [if_neg (by simp [hl'.isNull]), if_neg (by simp [hl'.isNull]),
        if_neg (by simp [hr'.isNull])]
      simp only [Step.bind_eq_ok, Step.kept, typed_eq_ok, Lower.check_eq_ok, hl, hr,
        Step.pure_eq_ok]
      exact ⟨_, hl', _, hr', _, htl, _, htr, _, houtput, rfl, trivial⟩

end ByRules

mutual

theorem lowerExpr_eq_ok : ∀ e, ByRules e
  | .bool _, e', c, c' | .int _, e', c, c' | .rune _, e', c, c' | .string _, e', c, c' => by
    simp only [lowerExpr, Step.pure_eq_ok]
    constructor
    · rintro ⟨rfl, rfl⟩
      exact ⟨by constructor, rfl⟩
    · rintro ⟨⟨⟩, rfl⟩
      exact ⟨rfl, rfl⟩
  | .list es, e', c, c' | .set es, e', c, c' => by
    simp only [lowerExpr, Step.bind_eq_ok, Step.kept, lowerExprs_eq_ok es, Lower.check_eq_ok,
      Step.pure_eq_ok]
    constructor
    · rintro ⟨es', hes, item, hitem, rfl, rfl⟩
      exact ⟨by constructor <;> assumption, rfl⟩
    · rintro ⟨h, rfl⟩
      cases h
      exact ⟨_, ‹_›, _, ‹_›, rfl, rfl⟩
  | .map entries, e', c, c' => by
    simp only [lowerExpr, Step.bind_eq_ok, Step.kept, lowerEntries_eq_ok entries, Lower.check_eq_ok,
      Step.pure_eq_ok]
    constructor
    · rintro ⟨entries', hentries, key, hkey, value, hvalue, rfl, rfl⟩
      exact ⟨.map hentries hkey hvalue, rfl⟩
    · rintro ⟨h, rfl⟩
      cases h with
      | map hentries hkey hvalue =>
        exact ⟨_, hentries, _, hkey, _, hvalue, rfl, rfl⟩
  | .emptyList t, e', c, c' | .emptySet t, e', c, c' => by
    simp only [lowerExpr, Step.bind_eq_ok, Step.kept, Lower.check_eq_ok, Step.pure_eq_ok]
    constructor
    · rintro ⟨item, hitem, rfl, rfl⟩
      exact ⟨by constructor; exact hitem, rfl⟩
    · rintro ⟨h, rfl⟩
      cases h
      exact ⟨_, ‹_›, rfl, rfl⟩
  | .emptyMap tk tv, e', c, c' => by
    simp only [lowerExpr, Step.bind_eq_ok, Step.kept, Lower.check_eq_ok, Step.pure_eq_ok]
    constructor
    · rintro ⟨key, hkey, value, hvalue, rfl, rfl⟩
      exact ⟨.emptyMap hkey hvalue, rfl⟩
    · rintro ⟨h, rfl⟩
      cases h with
      | emptyMap hkey hvalue => exact ⟨_, hkey, _, hvalue, rfl, rfl⟩
  | .call (.function name) es, e', c, c' => by
    simp only [lowerExpr, Step.bind_eq_ok, Step.kept, Lower.inspect_eq_ok,
      lowerCall_iff (lowerArguments_eq_ok es), Step.pure_eq_ok]
    constructor
    · rintro ⟨_, hresolve, _, _, ⟨f, es', hf, hes, htypes, rfl, rfl⟩, rfl, rfl⟩
      exact ⟨.callFunction hresolve hf hes htypes, rfl⟩
    · rintro ⟨h, rfl⟩
      cases h with
      | callFunction hresolve hf hes htypes =>
        exact ⟨_, hresolve, _, c, ⟨_, _, hf, hes, htypes, rfl, rfl⟩, rfl, rfl⟩
  | .call (.method r name) es, e', c, c' =>
    ByRules.method (lowerExpr_eq_ok r) (lowerArguments_eq_ok es) (lowerOnly_eq_ok es)
  | .lookup a k, e', c, c' => by
    simp only [lowerExpr, Step.bind_eq_ok, Step.kept, typed_eq_ok, Lower.check_eq_ok,
      lowerExpr_eq_ok a, lowerExpr_eq_ok k, Step.pure_eq_ok]
    constructor
    · rintro ⟨a', ha, k', hk, ta, hta, tk, htk, ⟨kind, output⟩, hlookup, rfl, rfl⟩
      exact ⟨.lookup ha hk hta htk hlookup, rfl⟩
    · rintro ⟨h, rfl⟩
      cases h with
      | lookup ha hk hta htk hlookup =>
        exact ⟨_, ha, _, hk, _, hta, _, htk, _, hlookup, rfl, rfl⟩
  | .property r name, e', c, c' => by
    simp only [lowerExpr, Step.bind_eq_ok, Step.kept, typed_eq_ok, Lower.check_eq_ok,
      lowerExpr_eq_ok r, Step.pure_eq_ok]
    constructor
    · rintro ⟨r', hr, t, ht, ⟨field, output⟩, hfield, rfl, rfl⟩
      exact ⟨.property hr ht hfield, rfl⟩
    · rintro ⟨h, rfl⟩
      cases h with
      | property hr ht hfield =>
        exact ⟨_, hr, _, ht, _, hfield, rfl, rfl⟩
  | .contains a e, e', c, c' => by
    simp only [lowerExpr, Step.bind_eq_ok, Step.kept, typed_eq_ok, Lower.check_eq_ok, setItem_eq_ok,
      expectType_eq_ok, lowerExpr_eq_ok a, lowerExpr_eq_ok e, Step.pure_eq_ok]
    constructor
    · rintro ⟨a', ha, _, hta, item, rfl, e', he, _, _, ⟨hte, rfl, rfl⟩, rfl, rfl⟩
      exact ⟨.contains ha hta he hte, rfl⟩
    · rintro ⟨h, rfl⟩
      cases h with
      | contains ha hta he hte =>
        exact ⟨_, ha, _, hta, _, rfl, _, he, _, c,
          ⟨hte, rfl, rfl⟩, rfl, rfl⟩
  | .new name, e', c, c' => by
    simp only [lowerExpr, Step.bind_eq_ok, Step.kept, Lower.check_eq_ok, resolveModel_eq_ok,
      Step.pure_eq_ok]
    constructor
    · rintro ⟨id, hid, rfl, rfl⟩
      exact ⟨.new hid, rfl⟩
    · rintro ⟨h, rfl⟩
      cases h with
      | new hid => exact ⟨_, hid, rfl, rfl⟩
  | .length e, e', c, c' => by
    simp only [lowerExpr, Step.bind_eq_ok, Step.kept, typed_eq_ok, Lower.check_eq_ok,
      lowerExpr_eq_ok e, Step.pure_eq_ok]
    constructor
    · rintro ⟨e', he, t, ht, kind, hkind, rfl, rfl⟩
      exact ⟨.length he ht hkind, rfl⟩
    · rintro ⟨h, rfl⟩
      cases h with
      | length he ht hkind =>
        exact ⟨_, he, _, ht, _, hkind, rfl, rfl⟩
  | .unary op e, e', c, c' => by
    simp only [lowerExpr, Step.bind_eq_ok, Step.kept, typed_eq_ok, Lower.check_eq_ok,
      lowerExpr_eq_ok e, Step.pure_eq_ok]
    constructor
    · rintro ⟨e', he, t, ht, output, houtput, rfl, rfl⟩
      exact ⟨.unary he ht houtput, rfl⟩
    · rintro ⟨h, rfl⟩
      cases h with
      | unary he ht houtput =>
        exact ⟨_, he, _, ht, _, houtput, rfl, rfl⟩
  | .binary op l r, e', c, c' => ByRules.binary (lowerExpr_eq_ok l) (lowerExpr_eq_ok r)
  | .var name, e', c, c' => by
    simp only [lowerExpr, Lower.inspect_eq_ok, resolveVariable_eq_ok]
    constructor
    · rintro ⟨⟨d, t, hd, ht, rfl⟩, rfl⟩
      exact ⟨.var hd ht, rfl⟩
    · rintro ⟨h, rfl⟩
      cases h with
      | var hd ht => exact ⟨⟨_, _, hd, ht, rfl⟩, rfl⟩
  | .self, e', c, c' => by
    simp only [lowerExpr, Step.bind_eq_ok, Step.get_eq_ok]
    constructor
    · rintro ⟨_, _, ⟨rfl, rfl⟩, h⟩
      cases hid : c.scope.enclosingModel? with
      | none =>
        rw [hid] at h
        cases h
      | some id =>
        rw [hid] at h
        cases h
        exact ⟨.self hid, rfl⟩
    · rintro ⟨h, rfl⟩
      cases h with
      | self hid =>
        refine ⟨c, c, ⟨rfl, rfl⟩, ?_⟩
        rw [hid]
        rfl
  | .null, e', c, c' => by
    constructor
    · rintro ⟨⟩
    · rintro ⟨⟨⟩, _⟩
  | .pop a, e', c, c' => by
    simp only [lowerExpr, Step.bind_eq_ok, Step.kept, typed_eq_ok, Lower.check_eq_ok,
      listItem_eq_ok, lowerExpr_eq_ok a, Step.pure_eq_ok]
    constructor
    · rintro ⟨a', ha, _, hta, item, rfl, rfl, rfl⟩
      exact ⟨.pop ha hta, rfl⟩
    · rintro ⟨h, rfl⟩
      cases h with
      | pop ha hta => exact ⟨_, ha, _, hta, _, rfl, rfl, rfl⟩

theorem lowerExprs_eq_ok : ∀ es {es' c c'},
    lowerExprs es c = .ok es' c' ↔ Elabs c.program c.scope es es' ∧ c = c'
  | [], es', c, c' => by
    simp only [lowerExprs, Step.pure_eq_ok]
    constructor
    · rintro ⟨rfl, rfl⟩
      exact ⟨.nil, rfl⟩
    · rintro ⟨⟨⟩, rfl⟩
      exact ⟨rfl, rfl⟩
  | e :: es, es', c, c' => by
    simp only [lowerExprs, Step.bind_eq_ok, Step.kept, lowerExpr_eq_ok e, lowerExprs_eq_ok es,
      Step.pure_eq_ok]
    constructor
    · rintro ⟨e', he, es', hes, rfl, rfl⟩
      exact ⟨.cons he hes, rfl⟩
    · rintro ⟨h, rfl⟩
      cases h with
      | cons he hes => exact ⟨_, he, _, hes, rfl, rfl⟩

theorem lowerEntries_eq_ok : ∀ (entries : List (Syntax.Expr × Syntax.Expr))
    {entries' : List (Expr × Expr)} {c c' : Context},
    lowerEntries entries c = .ok entries' c' ↔
      ElabEntries c.program c.scope entries entries' ∧ c = c'
  | [], entries', c, c' => by
    simp only [lowerEntries, Step.pure_eq_ok]
    constructor
    · rintro ⟨rfl, rfl⟩
      exact ⟨.nil, rfl⟩
    · rintro ⟨⟨⟩, rfl⟩
      exact ⟨rfl, rfl⟩
  | (k, v) :: entries, entries', c, c' => by
    simp only [lowerEntries, Step.bind_eq_ok, Step.kept, lowerExpr_eq_ok k, lowerExpr_eq_ok v,
      lowerEntries_eq_ok entries, Step.pure_eq_ok]
    constructor
    · rintro ⟨k', hk, v', hv, entries', hentries, rfl, rfl⟩
      exact ⟨.cons hk hv hentries, rfl⟩
    · rintro ⟨h, rfl⟩
      cases h with
      | cons hk hv hentries =>
        exact ⟨_, hk, _, hv, _, hentries, rfl, rfl⟩

theorem lowerArguments_eq_ok : ∀ es {types es' c c'}, types.length = es.length →
      (lowerArguments types es c = .ok es' c' ↔
        Elabs c.program c.scope es es' ∧ es'.map (typeOf c.program) = types.map .ok ∧ c = c')
  | [], types, es', c, c', hlength => by
    obtain rfl := List.length_eq_zero_iff.mp hlength
    simp only [lowerArguments, Step.pure_eq_ok]
    constructor
    · rintro ⟨rfl, rfl⟩
      exact ⟨.nil, rfl, rfl⟩
    · rintro ⟨⟨⟩, _, rfl⟩
      exact ⟨rfl, rfl⟩
  | e :: es, [], _, _, _, hlength => by cases hlength
  | e :: es, t :: types, es', c, c', hlength => by
    have hrest := Nat.succ.inj hlength
    simp only [lowerArguments, Step.bind_eq_ok, Step.kept, expectType_eq_ok, lowerExpr_eq_ok e,
      lowerArguments_eq_ok es hrest, Step.pure_eq_ok]
    constructor
    · rintro ⟨e', he, _, _, ⟨ht, rfl, rfl⟩, es', _, ⟨hes, htypes, rfl⟩, rfl, rfl⟩
      refine ⟨.cons he hes, ?_, rfl⟩
      rw [List.map_cons, List.map_cons, ht, htypes]
    · rintro ⟨h, htypes, rfl⟩
      cases h with
      | cons he hes =>
        rw [List.map_cons, List.map_cons, List.cons.injEq] at htypes
        exact ⟨_, he, _, c, ⟨htypes.1, rfl, rfl⟩, _, c, ⟨hes, htypes.2, rfl⟩, rfl, rfl⟩

theorem lowerOnly_eq_ok : ∀ es {name item e' c c'}, lowerOnly name item es c = .ok e' c' ↔
      ∃ e, es = [e] ∧ Elab c.program c.scope e e' ∧ typeOf c.program e' = .ok item ∧ c = c'
  | [e], name, item, e', c, c' => by
    simp only [lowerOnly, Step.bind_eq_ok, Step.kept, expectType_eq_ok, lowerExpr_eq_ok e]
    constructor
    · rintro ⟨_, he, ht, rfl, rfl⟩
      exact ⟨e, rfl, he, ht, rfl⟩
    · rintro ⟨_, ⟨⟩, he, ht, rfl⟩
      exact ⟨e', he, ht, rfl, rfl⟩
  | [], name, item, e', c, c' | _ :: _ :: _, name, item, e', c, c' => by
    constructor
    · rintro ⟨⟩
    · rintro ⟨_, ⟨⟩, _⟩

end

end Scribe.Lowering
