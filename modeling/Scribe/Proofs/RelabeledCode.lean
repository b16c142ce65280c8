import Scribe.Proofs.Mirrors
import Scribe.Proofs.Bodies

/-!
# Code under other names

There are no names in the code of a program. So an expression or a statement under other names
becomes the same code, or is refused for the same kind of reason (`lowerExpr_mirrors`,
`lowerStmt_mirrors`).

Lowering asks the program for what it was given before: the types of expressions that were lowered,
the models of their types, the functions that names stand for. All of these are there at a place
that fits its site (`Context.Stands`), and a statement stands inside a callable that has a place for
its body (`Context.Inside`).
-/

namespace Scribe.Lowering

open Scribe.Core

variable {r : String → String}

/-! ## Names -/

variable {name : String} {e : LowerError}

theorem Relabeling.ne_builtIn (hr : Relabeling r) {builtIn : String}
    (hmem : builtIn ∈ ["add", "push", "pop", "contains"]) (h : name ≠ builtIn) : r name ≠ builtIn :=
  fun heq => h (hr.injective (heq.trans (hr.builtIn builtIn hmem).symm))

/-- A check of a name that fails in one way only. -/
theorem nameCheck_mirrors {test : String → Checked Unit}
    (herror : ∀ {name e}, test name = .error e → ∃ rule, e = .invalidName name rule)
    {name' : String} (hname : test name' = .ok () ↔ test name = .ok ()) :
    Checked.Mirrors Eq (test name) (test name') := by
  cases h : test name with
  | ok u =>
    rw [hname.mpr h]
    exact .ok rfl
  | error e =>
    cases h' : test name' with
    | ok u =>
      rw [hname.mp h'] at h
      cases h
    | error e' =>
      obtain ⟨rule, rfl⟩ := herror h
      obtain ⟨rule', rfl⟩ := herror h'
      exact .error ⟨rfl, id⟩

theorem checkLetters_error (h : checkLetters name = .error e) :
    ∃ rule, e = .invalidName name rule := by
  unfold checkLetters at h
  split at h
  · cases h
    exact ⟨_, rfl⟩
  · split at h
    · cases h
    · cases h
      exact ⟨_, rfl⟩

/-- A first letter that has to be of some case. -/
theorem firstLetter_error {test : Char → Bool} {rule : NameRule}
    (h : (do
      if test (← checkLetters name) then
        return ()
      else
        throw (.invalidName name rule) : Checked Unit) = .error e) :
    ∃ rule, e = .invalidName name rule := by
  cases hletters : checkLetters name with
  | error e' =>
    rw [hletters] at h
    cases h
    exact checkLetters_error hletters
  | ok first =>
    rw [hletters] at h
    replace h : (if test first then .ok () else .error (.invalidName name rule) :
      Checked Unit) = .error e := h
    split at h
    · cases h
    · cases h
      exact ⟨_, rfl⟩

theorem checkConstantName_error (h : checkConstantName name = .error e) :
    ∃ rule, e = .invalidName name rule := by
  unfold checkConstantName at h
  split at h
  · cases h
    exact ⟨_, rfl⟩
  · split at h
    · cases h
      exact ⟨_, rfl⟩
    · split at h
      · cases h
      · cases h
        exact ⟨_, rfl⟩

namespace Relabeling

variable (hr : Relabeling r)

include hr

theorem checkTypeName (name : String) :
    Checked.Mirrors Eq (checkTypeName name) (checkTypeName (r name)) :=
  nameCheck_mirrors firstLetter_error (hr.typeName name)

theorem checkMemberName (name : String) :
    Checked.Mirrors Eq (checkMemberName name) (checkMemberName (r name)) :=
  nameCheck_mirrors firstLetter_error (hr.memberName name)

theorem checkConstantName (name : String) :
    Checked.Mirrors Eq (checkConstantName name) (checkConstantName (r name)) :=
  nameCheck_mirrors checkConstantName_error (hr.constantName name)

end Relabeling

/-! ## Resolution -/

/-- A place of lowering that stands at a site, and whose functions are there. -/
structure Context.Stands (site : Site) (c : Context) : Prop where
  fits : c.Fits site
  body : site.callable.isSome
  functions : ∀ id, Frame.function id ∈ c.scope → ∃ f, c.program.getFunction? id = some f

theorem Definition.InScope.definitionType? {p : Program} {site : Site} {d : Definition}
    (h : d.InScope p site) : ∃ t, p.definitionType? d = some t := by
  cases d with
  | constant id | argument id i | field id i | binding id =>
    obtain ⟨_, x, hx⟩ := h
    exact ⟨x.type, Option.map_eq_some_iff.mpr ⟨x, hx, rfl⟩⟩

section Resolution

variable {p : Program} (hr : Relabeling r)

include hr

theorem resolveModel_mirrors (name : String) :
    Checked.Mirrors Eq (resolveModel p name) (resolveModel (p.relabel r) (r name)) := by
  unfold resolveModel
  rw [model?_relabel hr.injective]
  split
  · exact .ok rfl
  · exact .error ⟨rfl, id⟩

theorem lowerType_mirrors (spelling : Syntax.TypeExpr) :
    Checked.Mirrors Eq (lowerType p spelling) (lowerType (p.relabel r) (spelling.relabel r)) := by
  induction spelling with
  | bool | int | rune | string | void => exact .ok rfl
  | list item ih | set item ih =>
    exact ih.bind_eq fun t _ => (requireValueType_mirrors t).bind_eq fun _ _ => .ok rfl
  | map key value ihk ihv =>
    refine ihk.bind_eq fun t _ => (requireValueType_mirrors t).bind_eq fun _ _ => ?_
    exact ihv.bind_eq fun t _ => (requireValueType_mirrors t).bind_eq fun _ _ => .ok rfl
  | model name => exact (resolveModel_mirrors hr name).bind_eq fun _ _ => .ok rfl

theorem lowerValueType_mirrors (spelling : Syntax.TypeExpr) :
    Checked.Mirrors Eq (lowerValueType p spelling)
      (lowerValueType (p.relabel r) (spelling.relabel r)) :=
  (lowerType_mirrors hr spelling).bind_eq fun t _ => requireValueType_mirrors t

theorem resolveMethod_mirrors {t : Ty} (h : t.Known p) (name : String) :
    Checked.Mirrors Eq (resolveMethod p t name) (resolveMethod (p.relabel r) t (r name)) := by
  refine (receiverModel_mirrors h).bind_eq fun model hmodel => ?_
  obtain rfl := receiverModel_eq_ok.mp hmodel
  obtain ⟨m, hm⟩ := h
  refine (Checked.Mirrors.ofOption hm (getModel?_relabel model)).bind fun m m' _ hm' => ?_
  rw [hm', method?_relabel hr.injective]
  split
  · exact .ok rfl
  · exact .error ⟨rfl, id⟩

theorem resolveField_mirrors (hp : p.Indexed) {t : Ty} (h : t.Known p) (name : String) :
    Checked.Mirrors Eq (resolveField p t name) (resolveField (p.relabel r) t (r name)) := by
  refine (receiverModel_mirrors h).bind_eq fun model hmodel => ?_
  obtain rfl := receiverModel_eq_ok.mp hmodel
  obtain ⟨m, hm⟩ := h
  refine (Checked.Mirrors.ofOption hm (getModel?_relabel model)).bind fun m m' hm hm' => ?_
  rw [hm', field?_relabel hr.injective]
  cases hi : m.field? name with
  | none => exact .error ⟨rfl, id⟩
  | some i =>
    obtain ⟨f, hf, _⟩ := (hp.field?_eq_some (Checked.ofOption_eq_ok.mp hm)).mp hi
    refine (Checked.Mirrors.ofOption hf List.getElem?_map).bind fun f f' _ hf' => .ok ?_
    rw [hf']
    rfl

theorem resolve_mirrors {name : String} {scope : Scope}
    (h : ∀ frame ∈ scope, Checked.Mirrors Eq (frame.find? p name)
      ((frame.relabel r).find? (p.relabel r) (r name))) :
    Checked.Mirrors Eq (scope.resolve p name)
      ((scope.relabel r).resolve (p.relabel r) (r name)) := by
  induction scope with
  | nil =>
    show Checked.Mirrors Eq (Scope.resolve p name []) (Scope.resolve (p.relabel r) (r name) [])
    unfold Scope.resolve
    rw [constant?_relabel hr.injective]
    split
    · exact .ok rfl
    · exact .error ⟨rfl, id⟩
  | cons frame outer ih =>
    obtain ⟨hframe, houter⟩ := List.forall_mem_cons.mp h
    refine hframe.bind_eq fun found _ => ?_
    cases found with
    | some definition => exact .ok rfl
    | none => exact ih houter

end Resolution

namespace Context.Stands

variable {site : Site} {c : Context} (hc : c.Stands site) (hr : Relabeling r)

include hc

/-- What is lowered on its own is no constant form that would have to be checked. -/
theorem not_constant {form : Bool} : site.callable = none → form = true :=
  Site.not_constant_of_isSome hc.body

theorem elab_sound {e : Syntax.Expr} {e' : Expr} (h : Elab c.program c.scope e e') :
    e'.All (Expr.Sound c.program site) :=
  h.sound hc.fits hc.not_constant

/-- What a plain call resolves to is there. -/
theorem function_of_resolveFunction {name : String} {target : Option Expr × FunctionId}
    (h : resolveFunction c.program c.scope name = .ok target) :
    ∃ f, c.program.getFunction? target.2 = some f := by
  obtain ⟨id, m, _, hm, hmethod, _⟩ | ⟨_, hfree, _⟩ := resolveFunction_iff.mp h
  · obtain ⟨f, hf, _⟩ := getFunction?_of_method? hc.fits.signatures hm hmethod
    exact ⟨f, hf⟩
  · obtain ⟨f, hf, _⟩ := hc.fits.signatures.indexed.function?_eq_some.mp hfree
    exact ⟨f, hf⟩

/-- What a call on an instance resolves to is there. -/
theorem function_of_resolveMethod {receiver : Ty} {name : String} {function : FunctionId}
    (h : resolveMethod c.program receiver name = .ok function) :
    ∃ f, c.program.getFunction? function = some f := by
  obtain ⟨id, m, rfl, hm, hmethod⟩ := resolveMethod_eq_ok.mp h
  obtain ⟨f, hf, _⟩ := getFunction?_of_method? hc.fits.signatures hm hmethod
  exact ⟨f, hf⟩

include hr

theorem find?_mirrors {frame : Frame} (hframe : frame ∈ c.scope) (name : String) :
    Checked.Mirrors Eq (frame.find? c.program name)
      ((frame.relabel r).find? (c.program.relabel r) (r name)) := by
  -- a frame that gives one name
  have single (b : Binding) : Checked.Mirrors Eq
      (.ok (if b.name = name then some (.binding b.id) else none) : Checked (Option Definition))
      (.ok (if (b.relabel r).name = r name then some (.binding b.id) else none)) := by
    refine .ok ?_
    show _ = if r b.name = r name then some (Definition.binding b.id) else none
    simp only [hr.injective.eq_iff]
  cases frame with
  | program | hashing => exact .ok rfl
  | model id =>
    obtain ⟨_, m, hm⟩ := hc.fits.frames _ hframe
    refine (Checked.Mirrors.ofOption hm (getModel?_relabel id)).bind fun m m' _ hm' => .ok ?_
    rw [hm', field?_relabel hr.injective]
  | function id =>
    obtain ⟨f, hf⟩ := hc.functions id hframe
    refine (Checked.Mirrors.ofOption hf (getFunction?_relabel id)).bind fun f f' _ hf' => .ok ?_
    rw [hf']
    show _ = ((f.parameters.map (·.relabel r)).findIdx? (·.name == r name)).map _
    rw [List.findIdx?_map]
    exact congrArg (fun test => (f.parameters.findIdx? test).map (Definition.argument id))
      (funext fun q => (relabel_beq hr.injective q.name name).symm)
  | equality id other => exact single other
  | block bindings =>
    refine .ok ?_
    show _ = ((bindings.map (·.relabel r)).find? (·.name == r name)).map _
    rw [List.find?_map, Option.map_map]
    exact congrArg (fun test => (bindings.find? test).map (Definition.binding ·.id))
      (funext fun b => (relabel_beq hr.injective b.name name).symm)
  | forLoop binding =>
    cases binding with
    | none => exact .ok rfl
    | some b => exact single b
  | forEach item => exact single item

theorem resolveVariable_mirrors (name : String) :
    Checked.Mirrors Eq (resolveVariable c.program c.scope name)
      (resolveVariable (c.program.relabel r) (c.scope.relabel r) (r name)) := by
  refine (resolve_mirrors hr fun frame hframe => hc.find?_mirrors hr hframe name).bind_eq
    fun d hd => ?_
  obtain ⟨t, ht⟩ := Definition.InScope.definitionType? (hc.fits.resolve hd)
  rw [definitionType?_relabel, ht]
  exact .ok rfl

theorem resolveFunction_mirrors (name : String) :
    Checked.Mirrors Eq (resolveFunction c.program c.scope name)
      (resolveFunction (c.program.relabel r) (c.scope.relabel r) (r name)) := by
  unfold resolveFunction
  rw [enclosingModel?_relabel, function?_relabel hr.injective]
  cases hmodel : c.scope.enclosingModel? with
  | none =>
    cases c.program.function? name with
    | none => exact .error ⟨rfl, id⟩
    | some function => exact .ok rfl
  | some model =>
    obtain ⟨_, m, hm⟩ := hc.fits.enclosingModel? hmodel
    refine (Checked.Mirrors.ofOption hm (getModel?_relabel model)).bind fun m m' _ hm' => ?_
    rw [hm', method?_relabel hr.injective]
    -- a free function is looked for where the model has no such method
    cases m.method? name with
    | none =>
      cases c.program.function? name with
      | none => exact .error ⟨rfl, id⟩
      | some function => exact .ok rfl
    | some function => exact .ok rfl

end Context.Stands

/-! ## Steps of lowering -/

section Steps

variable {site : Site} {c : Context} {γ : Type} {S : γ → γ → Prop}

/-- A sound expression has a type, and it is known. -/
theorem Expr.All.typeOf_known {p : Program} {e : Expr} (he : e.All (Expr.Sound p site)) :
    ∃ t, typeOf p e = .ok t ∧ t.Known p :=
  ⟨_, he.root.truthful.typed, he.known he.root.truthful.typed⟩

/-- The type of a sound expression in front of the rest. -/
theorem Lower.Mirrors.typed_bind {e : Expr} (he : e.All (Expr.Sound c.program site))
    {f k : Ty → Lower γ} (hf : ∀ t, t.Known c.program → Lower.Mirrors r S c (f t) (k t)) :
    Lower.Mirrors r S c (typed e >>= f) (typed e >>= k) := by
  obtain ⟨t, ht, hknown⟩ := Expr.All.typeOf_known he
  exact .known_bind ht (typeOf_relabel ht) (hf t hknown)

/-- The lowering of a part in front of the rest: it changes nothing and gives a sound expression. -/
theorem Lower.Mirrors.part_bind (hc : c.Stands site) {e : Syntax.Expr}
    (he : Lower.Mirrors r Eq c (lowerExpr e) (lowerExpr (e.relabel r))) {f k : Expr → Lower γ}
    (hf : ∀ e', e'.All (Expr.Sound c.program site) → Lower.Mirrors r S c (f e') (k e')) :
    Lower.Mirrors r S c (lowerExpr e >>= f) (lowerExpr (e.relabel r) >>= k) := by
  refine .bind_eq he fun e' c' h => ?_
  obtain ⟨he', rfl⟩ := (lowerExpr_eq_ok e).mp h
  exact hf e' (hc.elab_sound he')

/-- A part and its type in front of the rest. -/
theorem Lower.Mirrors.operand_bind (hc : c.Stands site) {e : Syntax.Expr}
    (he : Lower.Mirrors r Eq c (lowerExpr e) (lowerExpr (e.relabel r)))
    {f k : Expr → Ty → Lower γ}
    (hf : ∀ e' t, t.Known c.program → Lower.Mirrors r S c (f e' t) (k e' t)) :
    Lower.Mirrors r S c (lowerExpr e >>= fun e' => typed e' >>= f e')
      (lowerExpr (e.relabel r) >>= fun e' => typed e' >>= k e') :=
  .part_bind hc he fun e' he' => .typed_bind he' fun t ht => hf e' t ht

theorem expectType_mirrors {expected : Ty} (hexpected : expected.Known c.program) {e : Expr}
    (he : e.All (Expr.Sound c.program site)) :
    Lower.Mirrors r Eq c (expectType expected e) (expectType expected e) :=
  .typed_bind he fun _ ht => .check_pure (ensureType_mirrors hexpected ht)

theorem nullAt_mirrors (t : Ty) : Lower.Mirrors r Eq c (nullAt t) (nullAt t) := by
  unfold nullAt
  split
  · exact .throw ⟨rfl, id⟩
  · exact .pure rfl

theorem requireArity_mirrors (name name' : String) (expected found : Nat) :
    Lower.Mirrors r Eq c (requireArity name expected found)
      (requireArity name' expected found) := by
  unfold requireArity
  split
  · exact .pure rfl
  · exact .throw ⟨rfl, id⟩

/-- A call of a function that is there: its arguments are lowered at types that are known, as many
as there are arguments. -/
theorem lowerCall_mirrors (hc : c.Stands site) {receiver : Option Expr} {function : FunctionId}
    (hfunction : ∃ f, c.program.getFunction? function = some f) {count : Nat}
    {l l' : List Ty → Lower (List Expr)}
    (h : ∀ {types}, types.length = count → (∀ t ∈ types, t.Known c.program) →
      Lower.Mirrors r Eq c (l types) (l' types)) :
    Lower.Mirrors r Eq c (lowerCall receiver function count l)
      (lowerCall receiver function count l') := by
  obtain ⟨f, hf⟩ := hfunction
  have hf' : (c.program.relabel r).getFunction? function = some (f.relabel r) := by
    rw [getFunction?_relabel, hf]
    rfl
  refine .known_bind (Checked.ofOption_eq_ok.mpr hf) (Checked.ofOption_eq_ok.mpr hf') ?_
  have hlength : (f.relabel r).parameters.length = f.parameters.length := List.length_map _
  have htypes : (f.relabel r).parameters.map (·.type) = f.parameters.map (·.type) :=
    List.map_map
  rw [hlength, htypes]
  refine .bind_eq (requireArity_mirrors _ _ _ _) fun _ c' harity => ?_
  obtain ⟨hcount, rfl⟩ := requireArity_eq_ok.mp harity
  refine .bind_pure (h ((List.length_map _).trans hcount) ?_)
  exact List.forall_mem_map.mpr fun q hq => (hc.fits.signatures.parameters hf q hq).1

/-- The types of sound expressions are known, and there are no names in them. -/
theorem sharedTypes_mirrors {α : Type} {part : LiteralPart} {xs : List α} {e : α → Expr}
    (hxs : ∀ x ∈ xs, (e x).All (Expr.Sound c.program site)) :
    Checked.Mirrors Eq (sharedType c.program part (xs.map (typeOf c.program <| e ·)))
      (sharedType (c.program.relabel r) part (xs.map (typeOf (c.program.relabel r) <| e ·))) := by
  have hsame : xs.map (typeOf (c.program.relabel r) <| e ·) = xs.map (typeOf c.program <| e ·) := by
    refine List.map_congr_left fun x hx => ?_
    obtain ⟨t, ht, _⟩ := Expr.All.typeOf_known (hxs x hx)
    rw [ht, typeOf_relabel ht]
  rw [hsame]
  exact sharedType_mirrors (List.forall_mem_map.mpr fun x hx => Expr.All.typeOf_known (hxs x hx))

end Steps

/-! ## Expressions -/

theorem isNull_relabel (e : Syntax.Expr) : (e.relabel r).isNull = e.isNull := by
  cases e <;> rfl

theorem length_relabelExprs (es : List Syntax.Expr) :
    (Syntax.relabelExprs r es).length = es.length := by
  induction es with
  | nil => rfl
  | cons e rest ih => exact congrArg (· + 1) ih

mutual

/-- An expression becomes the same under other names. -/
theorem lowerExpr_mirrors (hr : Relabeling r) {site : Site} {c : Context} (hc : c.Stands site) :
    ∀ e : Syntax.Expr, Lower.Mirrors r Eq c (lowerExpr e) (lowerExpr (e.relabel r))
  | .bool _ | .int _ | .rune _ | .string _ => .pure rfl
  | .list items | .set items => by
    refine .bind_eq (lowerExprs_mirrors hr hc items) fun es c' h => ?_
    obtain ⟨hes, rfl⟩ := (lowerExprs_eq_ok items).mp h
    refine .check_bind ?_ fun _ _ => .pure rfl
    rw [typesOf_eq_map, typesOf_eq_map]
    exact sharedTypes_mirrors (hes.sound hc.fits hc.not_constant)
  | .map entries => by
    refine .bind_eq (lowerEntries_mirrors hr hc entries) fun es c' h => ?_
    obtain ⟨hes, rfl⟩ := (lowerEntries_eq_ok entries).mp h
    have hall := hes.sound hc.fits hc.not_constant
    refine .check_bind ?_ fun _ _ => .check_bind ?_ fun _ _ => .pure rfl
    · rw [keyTypes_eq_map, keyTypes_eq_map]
      exact sharedTypes_mirrors fun x hx => (hall x hx).1
    · rw [valueTypes_eq_map, valueTypes_eq_map]
      exact sharedTypes_mirrors fun x hx => (hall x hx).2
  | .emptyList item | .emptySet item =>
    .check_pure (lowerValueType_mirrors hr item)
  | .emptyMap key value =>
    .check_bind (lowerValueType_mirrors hr key) fun _ _ =>
      .check_pure (lowerValueType_mirrors hr value)
  | .call (.function name) arguments => by
    rw [Syntax.Expr.relabel, Syntax.Target.relabel, lowerExpr, lowerExpr, length_relabelExprs]
    refine .inspect_bind (hc.resolveFunction_mirrors hr name) fun target htarget => ?_
    exact .bind_pure (lowerCall_mirrors hc (hc.function_of_resolveFunction htarget)
      (lowerArguments_mirrors hr hc arguments))
  | .call (.method receiver name) arguments => by
    have hcall (a : Expr) {t : Ty} (ht : t.Known c.program) : Lower.Mirrors r Eq c
        (do
          let function ← Lower.check (resolveMethod · t name)
          let call ← lowerCall a function arguments.length (lowerArguments · arguments)
          return call.toExpr)
        (do
          let function ← Lower.check (resolveMethod · t (r name))
          let call ← lowerCall a function arguments.length
            (lowerArguments · (Syntax.relabelExprs r arguments))
          return call.toExpr) :=
      .check_bind (resolveMethod_mirrors hr ht name) fun function hfunction =>
        .bind_pure (lowerCall_mirrors hc (hc.function_of_resolveMethod hfunction)
          (lowerArguments_mirrors hr hc arguments))
    rw [Syntax.Expr.relabel, Syntax.Target.relabel, lowerExpr, lowerExpr, length_relabelExprs]
    refine .operand_bind hc (lowerExpr_mirrors hr hc receiver) fun a t ht => ?_
    -- a built-in operation keeps its name, and no other name becomes that of one
    split
    · rw [hr.builtIn "contains" (by decide)]
      exact .bind_pure (lowerOnly_mirrors hr hc arguments ht)
    · rw [hr.builtIn "pop" (by decide)]
      exact .bind_pure (requireArity_mirrors _ _ _ _)
    · next hcontains hpop =>
      split
      · next item hname => exact (hr.ne_builtIn (by decide) (hcontains item rfl) hname).elim
      · next item hname => exact (hr.ne_builtIn (by decide) (hpop item rfl) hname).elim
      · exact hcall a ht
  | .lookup container key => by
    refine .part_bind hc (lowerExpr_mirrors hr hc container) fun a ha => ?_
    refine .part_bind hc (lowerExpr_mirrors hr hc key) fun b hb => ?_
    exact .typed_bind ha fun _ ht => .typed_bind hb fun _ hk =>
      .check_pure (lookupType_mirrors ht hk)
  | .property receiver name =>
    .operand_bind hc (lowerExpr_mirrors hr hc receiver) fun _ _ ht =>
      .check_pure (resolveField_mirrors hr hc.fits.signatures.indexed ht name)
  | .contains container value => by
    refine .operand_bind hc (lowerExpr_mirrors hr hc container) fun a t ht => ?_
    refine .check_bind (setItem_mirrors ht) fun item hitem => ?_
    obtain rfl := setItem_eq_ok.mp hitem
    have hknown : item.Known c.program := ht
    exact .part_bind hc (lowerExpr_mirrors hr hc value) fun _ hb =>
      .bind_pure (expectType_mirrors hknown hb)
  | .new model =>
    .check_pure (resolveModel_mirrors hr model)
  | .length operand =>
    .operand_bind hc (lowerExpr_mirrors hr hc operand) fun _ _ ht =>
      .check_pure (lengthKind_mirrors ht)
  | .unary op operand =>
    .operand_bind hc (lowerExpr_mirrors hr hc operand) fun _ _ ht =>
      .check_pure (unaryOutput_mirrors op ht)
  | .binary op left right => by
    rw [Syntax.Expr.relabel, lowerExpr, lowerExpr, isNull_relabel, isNull_relabel]
    -- a `null` takes the type of the other side, and there is none if both are `null`
    split
    · exact .throw ⟨rfl, id⟩
    · split
      · exact .operand_bind hc (lowerExpr_mirrors hr hc right) fun _ t _ =>
          .bind_pure (nullAt_mirrors t)
      · split
        · exact .operand_bind hc (lowerExpr_mirrors hr hc left) fun _ t _ =>
            .bind_pure (nullAt_mirrors t)
        · refine .part_bind hc (lowerExpr_mirrors hr hc left) fun a ha => ?_
          refine .part_bind hc (lowerExpr_mirrors hr hc right) fun b hb => ?_
          exact .typed_bind ha fun _ ht => .typed_bind hb fun _ ht' =>
            .check_pure (binaryOutput_mirrors op ht ht')
  | .var name =>
    .inspect (hc.resolveVariable_mirrors hr name)
  | .self => by
    rw [Syntax.Expr.relabel, lowerExpr]
    refine .get_bind ?_
    rw [show (c.relabel r).scope.enclosingModel? = c.scope.enclosingModel? from
      enclosingModel?_relabel c.scope]
    cases c.scope.enclosingModel? with
    | some model => exact .pure rfl
    | none => exact .throw ⟨rfl, id⟩
  | .null => .throw ⟨rfl, id⟩
  | .pop container =>
    .operand_bind hc (lowerExpr_mirrors hr hc container) fun _ _ ht =>
      .check_pure (listItem_mirrors ht)

theorem lowerExprs_mirrors (hr : Relabeling r) {site : Site} {c : Context} (hc : c.Stands site) :
    ∀ es : List Syntax.Expr,
      Lower.Mirrors r Eq c (lowerExprs es) (lowerExprs (Syntax.relabelExprs r es))
  | [] => .pure rfl
  | e :: rest =>
    .part_bind hc (lowerExpr_mirrors hr hc e) fun _ _ =>
      .bind_pure (lowerExprs_mirrors hr hc rest)

theorem lowerEntries_mirrors (hr : Relabeling r) {site : Site} {c : Context} (hc : c.Stands site) :
    ∀ entries : List (Syntax.Expr × Syntax.Expr), Lower.Mirrors r Eq c (lowerEntries entries)
      (lowerEntries (Syntax.relabelEntries r entries))
  | [] => .pure rfl
  | (key, value) :: rest =>
    .part_bind hc (lowerExpr_mirrors hr hc key) fun _ _ =>
      .part_bind hc (lowerExpr_mirrors hr hc value) fun _ _ =>
        .bind_pure (lowerEntries_mirrors hr hc rest)

/-- There is a type for each argument, since their number was checked before. -/
theorem lowerArguments_mirrors (hr : Relabeling r) {site : Site} {c : Context}
    (hc : c.Stands site) : ∀ es {types}, types.length = es.length →
      (∀ t ∈ types, t.Known c.program) → Lower.Mirrors r Eq c (lowerArguments types es)
        (lowerArguments types (Syntax.relabelExprs r es))
  | [], _, _, _ => .pure rfl
  | _ :: _, [], hlength, _ => by cases hlength
  | e :: rest, t :: types, hlength, hknown => by
    obtain ⟨ht, htypes⟩ := List.forall_mem_cons.mp hknown
    refine .part_bind hc (lowerExpr_mirrors hr hc e) fun a ha => ?_
    refine .bind_eq (expectType_mirrors ht ha) fun a' c' h => ?_
    obtain ⟨_, rfl, rfl⟩ := expectType_eq_ok.mp h
    exact .bind_pure (lowerArguments_mirrors hr hc rest (Nat.succ.inj hlength) htypes)

theorem lowerOnly_mirrors (hr : Relabeling r) {site : Site} {c : Context} (hc : c.Stands site) :
    ∀ es {name item}, item.Known c.program → Lower.Mirrors r Eq c (lowerOnly name item es)
        (lowerOnly name item (Syntax.relabelExprs r es))
  | [e], _, _, hitem =>
    .part_bind hc (lowerExpr_mirrors hr hc e) fun _ ha => expectType_mirrors hitem ha
  | [], _, _, _ | _ :: _ :: _, _, _, _ => .throw ⟨rfl, id⟩

end

section Values

variable (hr : Relabeling r) {site : Site} {c : Context} (hc : c.Stands site)

include hr hc

theorem lowerExpecting_mirrors (expected : Ty) (e : Syntax.Expr) :
    Lower.Mirrors r Eq c (lowerExpecting expected e) (lowerExpecting expected (e.relabel r)) := by
  unfold lowerExpecting
  rw [isNull_relabel]
  split
  · exact nullAt_mirrors expected
  · exact lowerExpr_mirrors hr hc e

theorem lowerPlace_mirrors (e : Syntax.Expr) :
    Lower.Mirrors r Eq c (lowerPlace e) (lowerPlace (e.relabel r)) := by
  have he := lowerExpr_mirrors hr hc e
  cases e with
  | var name =>
    refine he.bind_eq fun place _ _ => ?_
    split
    · exact .throw ⟨rfl, id⟩
    · exact .pure rfl
  | property receiver name => exact he
  | lookup container key =>
    refine he.bind_eq fun place _ _ => ?_
    split
    · exact .throw ⟨rfl, id⟩
    · exact .pure rfl
  | _ => exact .throw ⟨rfl, id⟩

theorem lowerCondition_mirrors (condition : Syntax.Expr) :
    Lower.Mirrors r Eq c (lowerCondition condition) (lowerCondition (condition.relabel r)) := by
  refine .part_bind hc (lowerExpr_mirrors hr hc condition) fun e he => ?_
  obtain ⟨t, ht, hknown⟩ := Expr.All.typeOf_known he
  exact .check_pure (checkCondition_mirrors ht hknown)

end Values

/-! ## Places inside a callable -/

/-- A place of lowering inside the callable of its site, which has a place for its body, in a frame
of its own. -/
structure Context.Inside (site : Site) (c : Context) : Prop where
  fits : c.Fits site
  present : ∀ callable, site.callable = some callable → ∃ body, c.program.body? callable = some body
  enclosed : (Scope.enclosingCallable? c.scope.tail).isSome

theorem Scope.isSome_enclosingCallable?_cons {scope : Scope} (frame : Frame)
    (h : scope.enclosingCallable?.isSome) :
    (Scope.enclosingCallable? (frame :: scope)).isSome := by
  unfold enclosingCallable? at h ⊢
  rw [List.findSome?_cons]
  split
  · rfl
  · exact h

theorem Scope.isSome_enclosingCallable?_of_tail {scope : Scope}
    (h : (Scope.enclosingCallable? scope.tail).isSome) : scope.enclosingCallable?.isSome := by
  cases scope with
  | nil => exact h
  | cons frame outer => exact isSome_enclosingCallable?_cons frame h

theorem getFunction?_of_body? {p : Program} {id : FunctionId} {body : Block}
    (h : p.body? (.function id) = some body) : ∃ f, p.getFunction? id = some f := by
  obtain ⟨f, hf, _⟩ := Option.map_eq_some_iff.mp h
  exact ⟨f, hf⟩

theorem callableReturnType?_of_body? {p : Program} {callable : Callable} {body : Block}
    (h : p.body? callable = some body) : ∃ t, p.callableReturnType? callable = some t := by
  cases callable with
  | function id =>
    obtain ⟨f, hf⟩ := getFunction?_of_body? h
    exact ⟨f.returnType, congrArg (Option.map _) hf⟩
  | equality id | hashing id => exact ⟨_, rfl⟩

namespace Context.Inside

variable {site : Site} {c c' : Context} (hc : c.Inside site)

include hc

theorem enclosing : ∃ callable, c.scope.enclosingCallable? = some callable :=
  Option.isSome_iff_exists.mp (Scope.isSome_enclosingCallable?_of_tail hc.enclosed)

theorem body : site.callable.isSome := by
  obtain ⟨callable, hcallable⟩ := hc.enclosing
  rw [hc.fits.enclosingCallable? hcallable]
  rfl

theorem stands : c.Stands site := by
  refine ⟨hc.fits, hc.body, fun id hid => ?_⟩
  obtain ⟨body, hbody⟩ := hc.present (.function id) (hc.fits.frames _ hid)
  exact getFunction?_of_body? hbody

/-- What a statement changes does not lead out of the callable. -/
theorem lowered {ids : List LocalId} (h : Lowered site c c' ids) : c'.Inside (site.bind ids) := by
  refine ⟨h.fits, ?_, ?_⟩
  · intro callable hcallable
    rw [h.adds.body?]
    exact hc.present callable hcallable
  · rw [h.tail]
    exact hc.enclosed

theorem withFrame {frame : Frame} (hframe : frame.Fits c.program site) :
    ({ c with scope := frame :: c.scope } : Context).Inside site :=
  ⟨hc.fits.withFrame hframe, hc.present, Scope.isSome_enclosingCallable?_of_tail hc.enclosed⟩

end Context.Inside

/-! ## Statements -/

theorem newLocal_mirrors {c : Context} (name : String) (type : Ty) (origin : LocalOrigin) :
    Lower.Mirrors r Eq c (newLocal name type origin) (newLocal (r name) type origin) := by
  refine .build (.of_ok rfl ?_)
  unfold Program.relabel
  rw [Array.map_push, ← Array.size_map (f := (·.relabel r))]
  rfl

theorem lowerControl_mirrors {c : Context} (s : Stmt) :
    Lower.Mirrors r Eq c (lowerControl s) (lowerControl s) := by
  refine .get_bind ?_
  rw [show (c.relabel r).scope.inLoop = c.scope.inLoop from inLoop_relabel c.scope]
  split
  · exact .pure rfl
  · exact .throw ⟨rfl, id⟩

section Simple

variable (hr : Relabeling r) {site : Site} {c : Context}

include hr

theorem lowerDeclare_mirrors (hc : c.Stands site) (name : String) (value : Syntax.Expr) :
    Lower.Mirrors r Eq c (lowerDeclare name value) (lowerDeclare (r name) (value.relabel r)) := by
  refine .check_bind (hr.checkMemberName name) fun _ _ => ?_
  refine .operand_bind hc (lowerExpr_mirrors hr hc value) fun e t _ => ?_
  split
  · exact .throw_bind ⟨rfl, id⟩
  · exact .bind_eq (newLocal_mirrors name t .declared) fun id _ _ =>
      .bind_pure (.bindName ⟨name, id⟩ hr.injective)

theorem lowerAssign_mirrors (hc : c.Stands site) (place value : Syntax.Expr) :
    Lower.Mirrors r Eq c (lowerAssign place value)
      (lowerAssign (place.relabel r) (value.relabel r)) := by
  refine .bind_eq (lowerPlace_mirrors hr hc place) fun a c' h => ?_
  obtain ⟨⟨hplace, _⟩, rfl⟩ := lowerPlace_eq_ok.mp h
  refine .typed_bind (hc.elab_sound hplace) fun t ht => ?_
  refine .bind_eq (lowerExpecting_mirrors hr hc t value) fun b c' h => ?_
  obtain ⟨hvalue, rfl⟩ := lowerExpecting_eq_ok.mp h
  exact .bind_pure (expectType_mirrors ht (hvalue.sound hc.fits hc.body ht))

theorem lowerReturn_mirrors (hc : c.Inside site) (value : Option Syntax.Expr) :
    Lower.Mirrors r Eq c (lowerReturn value) (lowerReturn (value.map (·.relabel r))) := by
  obtain ⟨callable, hcallable⟩ := hc.enclosing
  -- the callable has a place for its body, and with it a type to return
  obtain ⟨body, hbody⟩ := hc.present callable (hc.fits.enclosingCallable? hcallable)
  obtain ⟨t, ht⟩ := callableReturnType?_of_body? hbody
  have hknown := callableReturnType?_known hc.fits.signatures ht
  have hscope : Checked.Mirrors Eq (enclosingCallable c.scope)
      (enclosingCallable (c.scope.relabel r)) := by
    unfold enclosingCallable
    rw [enclosingCallable?_relabel, hcallable]
    exact .ok rfl
  refine .inspect_bind (f := fun _ scope => enclosingCallable scope) hscope fun callable' h => ?_
  cases hcallable.symm.trans (enclosingCallable_eq_ok.mp h)
  refine .known_bind (Checked.ofOption_eq_ok.mpr ht) (b := t) ?_ ?_
  · rw [callableReturnType?_relabel, ht]
    rfl
  cases value with
  | none => exact .check_pure (checkReturn_mirrors hknown (by rintro _ ⟨⟩))
  | some e =>
    have hmap := Lower.Mirrors.map (S := Eq) (lowerExpecting_mirrors hr hc.stands t e)
      fun _ _ h => congrArg some h
    refine .bind_eq hmap fun value' c' h => ?_
    obtain ⟨e', he, rfl⟩ := Step.map_eq_ok.mp h
    obtain ⟨hvalue, rfl⟩ := lowerExpecting_eq_ok.mp he
    refine .check_pure (checkReturn_mirrors hknown ?_)
    rintro _ ⟨⟩
    exact Expr.All.typeOf_known (hvalue.sound hc.fits hc.body hknown)

theorem lowerAdd_mirrors (hc : c.Stands site) (container value : Syntax.Expr) :
    Lower.Mirrors r Eq c (lowerAdd container value)
      (lowerAdd (container.relabel r) (value.relabel r)) := by
  refine .operand_bind hc (lowerExpr_mirrors hr hc container) fun a t ht => ?_
  refine .check_bind (setItem_mirrors ht) fun item hitem => ?_
  obtain rfl := setItem_eq_ok.mp hitem
  have hknown : item.Known c.program := ht
  exact .part_bind hc (lowerExpr_mirrors hr hc value) fun _ hb =>
    .bind_pure (expectType_mirrors hknown hb)

theorem lowerPush_mirrors (hc : c.Stands site) (container value : Syntax.Expr) :
    Lower.Mirrors r Eq c (lowerPush container value)
      (lowerPush (container.relabel r) (value.relabel r)) := by
  refine .operand_bind hc (lowerExpr_mirrors hr hc container) fun a t ht => ?_
  refine .check_bind (listItem_mirrors ht) fun item hitem => ?_
  obtain rfl := listItem_eq_ok.mp hitem
  have hknown : item.Known c.program := ht
  exact .part_bind hc (lowerExpr_mirrors hr hc value) fun _ hb =>
    .bind_pure (expectType_mirrors hknown hb)

theorem lowerPop_mirrors (hc : c.Stands site) (container : Syntax.Expr) :
    Lower.Mirrors r Eq c (lowerPop container) (lowerPop (container.relabel r)) :=
  .operand_bind hc (lowerExpr_mirrors hr hc container) fun _ _ ht =>
    .check_pure (listItem_mirrors ht)

theorem lowerCallStmt_mirrors (hc : c.Stands site) (target : Syntax.Target)
    (arguments : List Syntax.Expr) :
    Lower.Mirrors r Eq c (lowerCallStmt target arguments)
      (lowerCallStmt (target.relabel r) (Syntax.relabelExprs r arguments)) := by
  have hcall (receiver : Option Expr) {function : FunctionId}
      (hfunction : ∃ f, c.program.getFunction? function = some f) : Lower.Mirrors r Eq c
      (do
        let call ← lowerCall receiver function arguments.length (lowerArguments · arguments)
        return call.toStmt : Lower Stmt)
      (do
        let call ← lowerCall receiver function arguments.length
          (lowerArguments · (Syntax.relabelExprs r arguments))
        return call.toStmt) :=
    .bind_pure (lowerCall_mirrors hc hfunction (lowerArguments_mirrors hr hc arguments))
  cases target with
  | function name =>
    rw [Syntax.Target.relabel, lowerCallStmt, lowerCallStmt, length_relabelExprs]
    exact .inspect_bind (hc.resolveFunction_mirrors hr name) fun target htarget =>
      hcall target.1 (hc.function_of_resolveFunction htarget)
  | method receiver name =>
    rw [Syntax.Target.relabel, lowerCallStmt, lowerCallStmt, length_relabelExprs]
    refine .operand_bind hc (lowerExpr_mirrors hr hc receiver) fun a t ht => ?_
    split
    · rw [hr.builtIn "add" (by decide)]
      exact .bind_pure (lowerOnly_mirrors hr hc arguments ht)
    · rw [hr.builtIn "push" (by decide)]
      exact .bind_pure (lowerOnly_mirrors hr hc arguments ht)
    · rw [hr.builtIn "pop" (by decide)]
      exact .bind_pure (requireArity_mirrors _ _ _ _)
    · next hadd hpush hpop =>
      split
      · next item hname => exact (hr.ne_builtIn (by decide) (hadd item rfl) hname).elim
      · next item hname => exact (hr.ne_builtIn (by decide) (hpush item rfl) hname).elim
      · next item hname => exact (hr.ne_builtIn (by decide) (hpop item rfl) hname).elim
      · exact .check_bind (resolveMethod_mirrors hr ht name) fun function hfunction =>
          hcall a (hc.function_of_resolveMethod hfunction)

end Simple

theorem isEmpty_relabelArms (arms : List (Syntax.Expr × List Syntax.Stmt)) :
    (Syntax.relabelArms r arms).isEmpty = arms.isEmpty := by
  cases arms <;> rfl

mutual

/-- A statement inside a callable becomes the same under other names. -/
theorem lowerStmt_mirrors (hr : Relabeling r) :
    ∀ s {site c}, c.Inside site → Lower.Mirrors r Eq c (lowerStmt s) (lowerStmt (s.relabel r))
  | .declare name value, _, _, hc => lowerDeclare_mirrors hr hc.stands name value
  | .assign place value, _, _, hc => lowerAssign_mirrors hr hc.stands place value
  | .conditional arms otherwise, _, c, hc => by
    rw [Syntax.Stmt.relabel, lowerStmt, lowerStmt, isEmpty_relabelArms]
    split
    · exact .throw_bind ⟨rfl, id⟩
    · refine .bind_eq (lowerArms_mirrors hr arms hc) fun arms' c' h => ?_
      have h1 := (((lowerArms_eq_ok arms).mp h).sound hc.fits hc.body).1
      exact .bind_pure (lowerOtherwise_mirrors hr otherwise (hc.lowered h1.lowered))
  | .forLoop start condition after body, _, c, hc => by
    -- what the start declares is known to the condition, the step and the block
    have hframe := hc.withFrame Frame.fits_forLoop_none
    refine .withFrame (.bind_eq (lowerPart_mirrors hr start hframe) fun start' c1 hstart => ?_)
    have h1 := ((lowerPart_eq_ok start).mp hstart).sound hframe.fits hframe.body
    have hc1 := hframe.lowered h1.lowered
    refine .bind_eq (lowerCondition_mirrors hr hc1.stands condition) fun e c2 he => ?_
    obtain ⟨_, rfl⟩ := lowerCondition_eq_ok.mp he
    refine .bind_eq (lowerPart_mirrors hr after hc1) fun after' c3 hafter => ?_
    have h3 := ((lowerPart_eq_ok after).mp hafter).sound hc1.fits hc1.body
    have hc3 := hc1.lowered h3.lowered
    exact .bind_pure (.withFrame (lowerStmts_mirrors hr body (hc3.withFrame Frame.fits_block_nil)))
  | .forEach item iterable body, site, c, hc => by
    refine .check_bind (hr.checkMemberName item) fun _ _ => ?_
    refine .operand_bind hc.stands (lowerExpr_mirrors hr hc.stands iterable) fun e t ht => ?_
    refine .check_bind (iterableKind_mirrors ht) fun kind hkind => ?_
    have hitem : kind.2.Known c.program := by
      obtain ⟨rfl, _⟩ | ⟨rfl, _⟩ := iterableKind_eq_ok.mp hkind
      · exact ht
      · exact ht
    refine .bind_eq (newLocal_mirrors item kind.2 .forEachItem) fun id c' h => ?_
    obtain ⟨rfl, rfl⟩ := newLocal_eq_ok.mp h
    have hnew := Lowered.newLocal hc.fits ⟨item, kind.2, .forEachItem⟩ hitem
    have hget := getLocal?_withLocal_self c.program ⟨item, kind.2, .forEachItem⟩
    have hframe : (Frame.forEach ⟨item, ⟨c.program.locals.size⟩⟩).Fits
        (c.program.withLocal ⟨item, kind.2, .forEachItem⟩)
        (site.bind [⟨c.program.locals.size⟩]) :=
      ⟨List.mem_append_right _ List.mem_cons_self, _, hget⟩
    have hinner := ((hc.lowered hnew).withFrame hframe).withFrame Frame.fits_block_nil
    exact .bind_pure (.withFrame (.withFrame (lowerStmts_mirrors hr body hinner)))
  | .ret value, _, _, hc => lowerReturn_mirrors hr hc value
  | .brk, _, _, _ | .cont, _, _, _ => lowerControl_mirrors _
  | .add container value, _, _, hc => lowerAdd_mirrors hr hc.stands container value
  | .push container value, _, _, hc => lowerPush_mirrors hr hc.stands container value
  | .pop container, _, _, hc => lowerPop_mirrors hr hc.stands container
  | .call target arguments, _, _, hc => lowerCallStmt_mirrors hr hc.stands target arguments

theorem lowerStmts_mirrors (hr : Relabeling r) :
    ∀ ss {site c}, c.Inside site →
      Lower.Mirrors r Eq c (lowerStmts ss) (lowerStmts (Syntax.relabelBlock r ss))
  | [], _, _, _ => .pure rfl
  | s :: rest, _, _, hc => by
    refine .bind_eq (lowerStmt_mirrors hr s hc) fun s' c' h => ?_
    have h1 := ((lowerStmt_eq_ok s).mp h).sound hc.fits hc.body
    exact .bind_pure (lowerStmts_mirrors hr rest (hc.lowered h1.lowered))

theorem lowerPart_mirrors (hr : Relabeling r) :
    ∀ part {site c}, c.Inside site →
      Lower.Mirrors r Eq c (lowerPart part) (lowerPart (Syntax.relabelPart r part))
  | none, _, _, _ => .pure rfl
  | some s, _, _, hc => .map (lowerStmt_mirrors hr s hc) fun _ _ h => congrArg some h

theorem lowerArms_mirrors (hr : Relabeling r) :
    ∀ (arms : List (Syntax.Expr × List Syntax.Stmt)) {site : Site} {c : Context}, c.Inside site →
      Lower.Mirrors r Eq c (lowerArms arms) (lowerArms (Syntax.relabelArms r arms))
  | [], _, _, _ => .pure rfl
  | (condition, block) :: rest, _, _, hc => by
    refine .bind_eq (lowerCondition_mirrors hr hc.stands condition) fun e c' h => ?_
    obtain ⟨_, rfl⟩ := lowerCondition_eq_ok.mp h
    have hframe := hc.withFrame Frame.fits_block_nil
    refine .bind_eq (.withFrame (lowerStmts_mirrors hr block hframe)) fun block' c' h => ?_
    have h1 := lowerBlock_sound hc.body hc.fits h
    exact .bind_pure (lowerArms_mirrors hr rest (hc.lowered h1.lowered))

theorem lowerOtherwise_mirrors (hr : Relabeling r) :
    ∀ (otherwise : Option (List Syntax.Stmt)) {site : Site} {c : Context}, c.Inside site →
      Lower.Mirrors r Eq c (lowerOtherwise otherwise)
        (lowerOtherwise (Syntax.relabelOtherwise r otherwise))
  | none, _, _, _ => .pure rfl
  | some block, _, _, hc =>
    .map (.withFrame (lowerStmts_mirrors hr block (hc.withFrame Frame.fits_block_nil)))
      fun _ _ h => congrArg some h

end

end Scribe.Lowering
